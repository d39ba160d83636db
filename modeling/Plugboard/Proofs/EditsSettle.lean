import Plugboard.Proofs.Connecting
import Plugboard.Proofs.References

/-!
# Edits keep a workspace settled

An edit that succeeds leaves both canvases regular. One that fails does so before it has changed
anything: whatever it asks for later on is there. An edit of a block comes down to a change of
kinds, after which blocks are made anew.
-/

namespace Plugboard

open Shape Workspace

/-- Kinds for blocks that depend on those that they have. -/
abbrev Rekinding := BlockId → BlockKind → BlockKind

/-- A function gets another kind, and what is listed becomes a variable. -/
def Rekinding.renaming (b : BlockId) (function : BlockKind) (uses : List BlockId) (new : String) :
    Rekinding := fun c kind =>
  if c ∈ uses then .variable new else if c = b then function else kind

namespace Shape

variable {sh : Shape}

def rekind (f : Rekinding) (sh : Shape) : Shape :=
  { sh with ports := fun b => (sh.ports b).map fun p => { p with kind := f b p.kind } }

theorem rekind_rekind (f f' : Rekinding) :
    (sh.rekind f).rekind f' = sh.rekind fun b kind => f' b (f b kind) := by
  simp [rekind, Function.comp_def]

theorem setPorts_eq_rekind {b : BlockId} {p : Ports} (hp : sh.ports b = some p)
    (kind : BlockKind) : sh.setPorts b (some { p with kind }) =
      sh.rekind fun c kind' => if c = b then kind else kind' := by
  ext c q
  · by_cases hc : c = b
    · rw [hc, setPorts, rekind]
      dsimp only
      rw [if_pos rfl, hp, Option.map_some, if_pos rfl]
    · rw [setPorts, rekind]
      dsimp only
      rw [if_neg hc]
      cases sh.ports c <;> simp [hc]
  all_goals rfl

theorem exists_ports_rekind {f : Rekinding} {b : BlockId} :
    (∃ p, (sh.rekind f).ports b = some p) ↔ ∃ p, sh.ports b = some p := by
  simp only [← Option.isSome_iff_exists, rekind, Option.isSome_map]

/-- No block loses a slot to a change of kinds. -/
def Widens (sh : Shape) (f : Rekinding) : Prop :=
  ∀ b p, sh.ports b = some p → p.kind.slots ⊆ (f b p.kind).slots

theorem Widens.trans {f f' : Rekinding} (h : sh.Widens f) (h' : (sh.rekind f).Widens f') :
    sh.Widens fun b kind => f' b (f b kind) := by
  intro b p hp
  have hmore := h b p hp
  have hp' : (sh.rekind f).ports b = some { p with kind := f b p.kind } := by
    rw [rekind]
    dsimp only
    rw [hp, Option.map_some]
  exact List.Subset.trans hmore (h' b _ hp')

/-- One block gets another kind. -/
theorem widens_of_subset {b : BlockId} {p : Ports} (hp : sh.ports b = some p) {kind : BlockKind}
    (hslots : p.kind.slots ⊆ kind.slots) :
    sh.Widens fun c kind' => if c = b then kind else kind' := by
  intro c q hq
  dsimp only
  split
  · rename_i hc
    subst hc
    cases hp.symm.trans hq
    exact hslots
  · exact List.Subset.refl _

end Shape

namespace Workspace

/-- Blocks of the main canvas have got other kinds and then have been made anew. -/
def Reshaped (f : Rekinding) (ws ws' : Workspace) : Prop :=
  (ws.main.shape.rekind f).Pruned ws'.main.shape ∧ ws'.flyout = ws.flyout

theorem Pruned.reshaped {f : Rekinding} {ws ws₁ ws' : Workspace} (h : ws₁.Pruned ws')
    (hshape : ws₁.main.shape = ws.main.shape.rekind f) (hflyout : ws₁.flyout = ws.flyout) :
    Reshaped f ws ws' :=
  ⟨hshape ▸ h.1, h.2.trans hflyout⟩

end Workspace

namespace WorkspaceM

variable {ws : Workspace} {loose : Set BlockId} {b : BlockId} {p : Ports}

theorem ends_addBlock (h : ws.Settled ∅) (canvas : Canvas) (kind : BlockKind) :
    Ends (addBlock canvas kind) ws (fun _ ws' => kind.Unrepeated → ws'.Settled ∅) (· = ws) := by
  rw [addBlock, ends_bind]
  refine (ends_layoutFor ws kind).imp (fun layout ws' hended => ?_) fun _ => And.left
  obtain ⟨hfits, hknown, pool, rfl⟩ := hended
  simp only [ends_bind, ends_onGraph, GraphM.ends_act, ends_requestRender, ends_pure]
  intro hkind
  have hadd : ∀ {g : Graph}, g.shape.Regular ∅ → (g.addBlock kind layout).2.shape.Regular ∅ := by
    intro g hg
    obtain ⟨p, hpkind, hout, hadded⟩ := Graph.added_addBlock hg.toWired.bounded kind layout
    subst hpkind
    rw [hfits.slots] at hadded
    exact hg.added hadded ⟨hkind, hknown, hout.trans hfits.output⟩
  cases canvas with
  | main => exact ⟨⟨hadd h.1.1, h.1.2⟩, h.2.1.addBlock trivial layout.every_true, h.2.2⟩
  | flyout => exact ⟨⟨h.1.1, hadd h.1.2⟩, h.2.1, h.2.2.addBlock trivial layout.every_true⟩

theorem ends_addOperator (h : ws.Settled ∅) (name : String) :
    Ends (addOperator name) ws (fun _ => Settled ∅) (· = ws) := by
  rw [addOperator, ends_bind, ends_get]
  cases ws.calleeArity? name with
  | some arity =>
      exact (ends_addBlock h .main (.operator name arity)).imp (fun _ _ hws' => hws' trivial)
        fun _ => id
  | none => rfl

theorem completes_refresh (bs : List BlockId) : Completes (Settled ∅) (refresh bs) := by
  intro ws h
  rw [refresh, ends_bind]
  refine (ends_componentsOf h.1.1.toWired bs).imp (fun members ws' ⟨hws', hlive, _⟩ => ?_)
    fun _ => id
  subst hws'
  rw [ends_bind]
  refine (ends_reset h hlive).imp (fun detached ws₁ ⟨hws₁, _⟩ => ?_) fun _ => id
  replace hws₁ := hws₁.mono (Set.sdiff_subset (s := ∅))
  exact settled_of_completes hws₁ ((Steady.of_shape hws₁.1.1).completes_inferAround hws₁.1.1 _)

theorem ends_connect_settled (h : ws.Settled ∅) (a b : SocketId) :
    Ends (connect a b) ws (fun _ => Settled ∅) (· = ws) := by
  refine (ends_connect h a b).imp (fun s ws' hended => ?_) fun _ => And.left
  obtain ⟨o, i, hconnect, hlinks⟩ := hended
  obtain ⟨c, d, hjoin⟩ := hconnect.joinable
  exact (hlinks.becomes hconnect).settled h (h.1.1.of_joinable hjoin) rfl

theorem ends_plug (h : ws.Settled ∅) (child parent : BlockId) (slot : String) :
    Ends (plug child parent slot) ws (fun _ => Settled ∅) (· = ws) := by
  rw [plug, ends_bind, ends_ask]
  cases ws.main.block child with
  | error e => rfl
  | ok block =>
      dsimp only
      cases block.output with
      | none => rfl
      | some output =>
          dsimp only
          rw [ends_bind, ends_ask]
          cases ws.main.inputNamed parent slot with
          | error e => rfl
          | ok input => exact ends_connect_settled h output input

theorem ends_pluggedOutput (h : ws.main.shape.Wired) (parent child : BlockId) :
    Ends (pluggedOutput parent child) ws
      (fun output ws' => ws' = ws ∧ ws.main.shape.site output = some (child, .output))
      (· = ws) := by
  rw [pluggedOutput, ends_bind, ends_ask, Graph.block]
  cases hchild : ws.main.blocks[child]? with
  | none => rfl
  | some block =>
      dsimp only
      cases hout : block.output with
      | none => rfl
      | some output =>
          have hsite := (h.lists (Graph.shape_ports_eq_some.2 ⟨block, hchild, rfl⟩)).output hout
          dsimp only
          rw [ends_bind, ends_ask]
          cases hplugged : ws.main.pluggedBlock output with
          | error e => rfl
          | ok found =>
              cases found with
              | none => rfl
              | some b =>
                  dsimp only
                  split
                  · exact ⟨rfl, hsite⟩
                  · rfl

theorem ends_unplug (h : ws.Settled ∅) (parent child : BlockId) :
    Ends (unplug parent child) ws (fun _ => Settled ∅) (· = ws) := by
  rw [unplug, ends_bind]
  refine (ends_pluggedOutput h.1.1.toWired parent child).imp (fun output ws' hended => ?_)
    fun _ => id
  obtain ⟨rfl, hr⟩ := hended
  rw [ends_bind, ends_onMain]
  refine ((GraphM.ends_unlink hr).and (GraphM.every_unlink output ws'.main h.2.1)).imp
    (fun _ g hended => ?_) fun _ => False.elim ∘ And.left
  obtain ⟨⟨-, hg⟩, htyped⟩ := hended
  refine (Completes.bind (completes_refresh _) (fun _ => completes_requestSweep) _ ?_).imp
    (fun _ _ => id) fun _ => False.elim
  exact h.main (hg ▸ h.1.1.cut output) htyped rfl

theorem ends_removeBlock (h : ws.Settled ∅) (b : BlockId) :
    Ends (removeBlock b) ws (fun _ => Settled ∅) (· = ws) := by
  rw [removeBlock, ends_bind, ends_ask]
  cases hb : ws.main.neighbours b with
  | error e => rfl
  | ok neighbours =>
      obtain ⟨block, hblock⟩ := Graph.block_of_neighbours hb
      have hp := Graph.shape_ports_eq_some.2 ⟨block, hblock, rfl⟩
      dsimp only
      rw [ends_bind, ends_onMain]
      refine ((GraphM.ends_removeBlock h.1.1.toWired hp).and
        (GraphM.every_removeBlock b ws.main h.2.1)).imp
        (fun _ g hended => ?_) fun _ => False.elim ∘ And.left
      obtain ⟨hg, htyped⟩ := hended
      refine (Completes.bind (completes_refresh _) (fun _ => completes_requestSweep) _ ?_).imp
        (fun _ _ => id) fun _ => False.elim
      exact h.main (hg ▸ h.1.1.remove hp) htyped rfl

/-- Only the kind of the block changes. -/
theorem ends_setKind (h : ws.Settled loose) (hp : ws.main.shape.ports b = some p)
    (f : BlockKind → BlockKind) :
    Ends (setKind b f) ws (fun _ ws' => ws'.flyout = ws.flyout ∧ ws'.main.Typed ∧
      ws'.main.shape = ws.main.shape.setPorts b (some { p with kind := f p.kind }))
      fun _ => False := by
  obtain ⟨block, hblock, rfl⟩ := Graph.shape_ports_eq_some.1 hp
  rw [setKind, ends_onMain]
  simp only [GraphM.updateBlock, ends_bind, GraphM.ends_ask, Graph.block, hblock, ends_modify,
    true_and]
  exact ⟨h.2.1.modifyBlock b (fun _ _ => trivial) fun _ _ _ _ _ => trivial,
    Graph.shape_modifyBlock_ports hblock⟩

/-- An edit that a block admits whose slots it may change. -/
structure Admits (kind kind' : BlockKind) : Prop where
  unrepeated : kind.Unrepeated → kind'.Unrepeated
  known : kind'.Known
  hasOutput : kind'.hasOutput = kind.hasOutput
  function? : kind'.function? = none

theorem ends_edit (h : ws.Settled ∅) (b : BlockId) {f : BlockKind → Except String BlockKind}
    (hf : ∀ {kind kind'}, f kind = .ok kind' → Admits kind kind') :
    Ends (edit b f) ws (fun _ ws' => ws'.Settled ∅ ∧ ∃ p kind, ws.main.shape.ports b = some p ∧
      f p.kind = .ok kind ∧ ws.Reshaped (fun c kind' => if c = b then kind else kind') ws')
      (· = ws) := by
  rw [edit, ends_bind, ends_ask, Graph.block]
  cases hb : ws.main.blocks[b]? with
  | none => rfl
  | some block =>
      dsimp only
      cases hkind : f block.kind with
      | error reason => rfl
      | ok kind =>
          have hp := Graph.shape_ports_eq_some.2 ⟨block, hb, rfl⟩
          have hadmits := hf hkind
          have hsound := h.1.1.sound hp
          dsimp only
          rw [ends_bind]
          refine (ends_setKind h hp fun _ => kind).imp (fun _ ws' hended => ?_)
            fun _ => False.elim
          obtain ⟨hflyout, htyped, hshape⟩ := hended
          have hsettled : ws'.Settled {b} := by
            refine h.main ?_ htyped hflyout
            rw [hshape]
            refine h.1.1.setKind (Set.empty_subset _) hp ⟨?_, hadmits.known, ?_⟩ fun hfun => ?_
            · exact hadmits.unrepeated hsound.unrepeated
            · exact hsound.output.trans hadmits.hasOutput.symm
            · have hfunction := hfun rfl
              rw [hadmits.function?] at hfunction
              cases hfunction
          refine (ends_finishEdit hsettled ?_).imp (fun _ ws'' hended =>
            ⟨hended.1, _, kind, hp, hkind, hended.2.reshaped ?_ hflyout⟩) fun _ => False.elim
          · rintro c rfl
            refine ⟨List.mem_singleton_self _, ?_⟩
            rw [hshape]
            exact ⟨_, if_pos rfl⟩
          · rw [hshape, setPorts_eq_rekind hp]

/-- A change of kind that leaves the slots as they are. -/
theorem ends_setKind_same (h : ws.Settled ∅) (hp : ws.main.shape.ports b = some p)
    {f : BlockKind → BlockKind} (hsound : Ports.Sound { p with kind := f p.kind })
    (hslots : (f p.kind).slots = p.kind.slots) :
    Ends (setKind b f) ws (fun _ ws' => ws'.Settled ∅ ∧
      ws'.main.shape = ws.main.shape.setPorts b (some { p with kind := f p.kind }) ∧
      ws'.flyout = ws.flyout) fun _ => False := by
  refine (ends_setKind h hp f).imp (fun _ ws' ⟨hflyout, htyped, hshape⟩ => ?_) fun _ => id
  refine ⟨h.main ?_ htyped hflyout, hshape, hflyout⟩
  rw [hshape]
  refine h.1.1.setKind (Set.Subset.refl _) hp hsound fun _ => ?_
  rw [hslots]
  exact h.1.1.fits hp False.elim

theorem ends_functionAt (b : BlockId) :
    Ends (functionAt b) ws (fun f ws' => ws' = ws ∧ ∃ p, ws.main.shape.ports b = some p ∧
      p.kind = .function f.1 f.2) (· = ws) := by
  rw [functionAt, ends_bind, ends_ask, Graph.block]
  cases hb : ws.main.blocks[b]? with
  | none => rfl
  | some block =>
      have hp := Graph.shape_ports_eq_some.2 ⟨block, hb, rfl⟩
      dsimp only
      cases hkind : block.kind with
      | function name params => exact ⟨rfl, _, hp, hkind⟩
      | _ => rfl

/-- A function that gets other parameters. -/
theorem ends_setFunction (h : ws.Settled ∅) (hp : ws.main.shape.ports b = some p) {name : String}
    {params : List String} (hkind : p.kind = .function name params) (params' : List String) :
    Ends (setKind b fun _ => .function name params') ws (fun _ ws' => ws'.Settled ∅ ∧
      ws'.main.shape = ws.main.shape.setPorts b (some { p with kind := .function name params' }) ∧
      ws'.flyout = ws.flyout) fun _ => False := by
  refine ends_setKind_same h hp (f := fun _ => .function name params') ⟨trivial, trivial, ?_⟩ ?_
  · rw [(h.1.1.sound hp).output, hkind]
    rfl
  · rw [hkind]
    rfl

theorem ends_renameUses {uses : List BlockId} (new : String) (h : ws.Settled ∅)
    (huses : ∀ use ∈ uses, ∃ q v, ws.main.shape.ports use = some q ∧ q.kind = .variable v) :
    Ends (uses.forM fun use => setKind use fun _ => .variable new) ws (fun _ ws' =>
      ws'.Settled ∅ ∧ ws'.main.shape =
        ws.main.shape.rekind (fun c kind => if c ∈ uses then .variable new else kind) ∧
      ws'.flyout = ws.flyout) fun _ => False := by
  induction uses generalizing ws with
  | nil => exact ⟨h, by simp [rekind], rfl⟩
  | cons use uses ih =>
      rw [List.forall_mem_cons] at huses
      obtain ⟨q, v, hq, hvar⟩ := huses.1
      change Ends (setKind use _ >>= fun _ => uses.forM _) ws _ _
      rw [ends_bind]
      refine (ends_setKind_same h hq (f := fun _ => .variable new) ⟨trivial, trivial, ?_⟩ ?_).imp
        (fun _ ws₁ ⟨hws₁, hshape, hflyout⟩ => ?_) fun _ => False.elim
      · rw [(h.1.1.sound hq).output, hvar]
        rfl
      · rw [hvar]
        rfl
      · refine (ih hws₁ fun use' huse' => ?_).imp
          (fun _ ws₂ ⟨hws₂, hshape₂, hflyout₂⟩ => ⟨hws₂, ?_, hflyout₂.trans hflyout⟩) fun _ => id
        · obtain ⟨q', v', hq', hvar'⟩ := huses.2 use' huse'
          rw [hshape]
          by_cases hsame : use' = use
          · exact ⟨_, new, if_pos hsame, rfl⟩
          · exact ⟨q', v', (if_neg hsame).trans hq', hvar'⟩
        · rw [hshape₂, hshape, setPorts_eq_rekind hq, rekind_rekind]
          congr 1
          funext c kind
          simp only [List.mem_cons]
          split <;> split <;> simp_all

/-- A function and the variables that refer to a parameter of it get other kinds. -/
theorem ends_renameKinds (h : ws.Settled ∅) (hp : ws.main.shape.ports b = some p) {name : String}
    {params : List String} (hkind : p.kind = .function name params) (params' : List String)
    {old : String} {uses : List BlockId} (huses : ws.main.usesOf b old = .ok uses) (new : String) :
    Ends (do
      setKind b fun _ => .function name params'
      uses.forM fun use => setKind use fun _ => .variable new) ws (fun _ ws' => ws'.Settled ∅ ∧
        ws'.main.shape = ws.main.shape.rekind (.renaming b (.function name params') uses new) ∧
        ws'.flyout = ws.flyout) fun _ => False := by
  rw [ends_bind]
  refine (ends_setFunction h hp hkind _).imp (fun _ ws₁ ⟨hws₁, hshape, hflyout⟩ => ?_) fun _ => id
  -- what refers to the parameter is no function, so it has not been touched
  refine (ends_renameUses new hws₁ fun use huse => ?_).imp
    (fun _ ws₂ ⟨hws₂, hshape₂, hflyout₂⟩ => ⟨hws₂, ?_, hflyout₂.trans hflyout⟩) fun _ => id
  · obtain ⟨-, block, hblock, hvar⟩ := (Graph.mem_usesWithin h.1.1.toWired huses).1 huse
    have hq := Graph.shape_ports_eq_some.2 ⟨block, hblock, rfl⟩
    refine ⟨⟨block.kind, block.output, block.inputs⟩, old, ?_, hvar⟩
    rw [hshape]
    refine (if_neg fun hub => ?_).trans hq
    rw [hub, hp] at hq
    cases hq
    cases hkind.symm.trans hvar
  · rw [hshape₂, hshape, setPorts_eq_rekind hp, rekind_rekind]
    rfl

/-- What has been renamed is finished like any other edit. -/
theorem ends_renameParameter_of {Q : Workspace → Prop} (h : ws.Settled ∅) {old new : String}
    (hfinish : ∀ {p name params uses ws'}, ws.main.shape.ports b = some p →
      p.kind = .function name params → old ∈ params → new ∉ params →
      ws.main.usesOf b old = .ok uses → ws'.Settled ∅ → ws'.main.shape =
        ws.main.shape.rekind (.renaming b (.function name (params.replace old new)) uses new) →
      ws'.flyout = ws.flyout → Ends (finishEdit [b]) ws' (fun _ => Q) fun _ => False) :
    Ends (renameParameter b old new) ws (fun _ => Q) (· = ws) := by
  rw [renameParameter, ends_bind]
  refine (ends_functionAt b).imp (fun f ws' ⟨hws', p, hp, hkind⟩ => ?_) fun _ => id
  subst hws'
  obtain ⟨name, params⟩ := f
  dsimp only
  split
  · rfl
  · rename_i hnew
    rw [ends_bind, ends_ask]
    cases huses : ws'.main.usesOf b old with
    | error e => rfl
    | ok uses =>
        dsimp only
        split
        · rfl
        · rename_i hold
          change Ends (setKind b _ >>= fun _ => _) ws' _ _
          rw [← bind_assoc, ends_bind]
          refine (ends_renameKinds h hp hkind _ huses new).imp
            (fun _ ws₁ ⟨hws₁, hshape, hflyout⟩ => ?_) fun _ => False.elim
          exact (hfinish hp hkind (by simpa using hold) (by simpa using hnew) huses hws₁
            hshape hflyout).imp (fun _ _ => id) fun _ => False.elim

theorem widens_renaming (h : ws.main.shape.Wired) (hp : ws.main.shape.ports b = some p)
    {name old new : String} {params params' : List String} (hkind : p.kind = .function name params)
    {uses : List BlockId} (huses : ws.main.usesOf b old = .ok uses) :
    ws.main.shape.Widens (.renaming b (.function name params') uses new) := by
  intro c q hq
  rw [Rekinding.renaming]
  split
  · rename_i hc
    obtain ⟨-, block, hblock, hvar⟩ := (Graph.mem_usesWithin h huses).1 hc
    cases (Graph.shape_ports_eq_some.2 ⟨block, hblock, rfl⟩).symm.trans hq
    rw [show block.kind = _ from hvar]
    exact List.nil_subset _
  · refine widens_of_subset hp ?_ c q hq
    rw [hkind]
    exact List.Subset.refl _

theorem ends_renameParameter (h : ws.Settled ∅) (b : BlockId) (old new : String) :
    Ends (renameParameter b old new) ws
      (fun _ ws' => ws'.Settled ∅ ∧ ∃ p f, ws.main.shape.ports b = some p ∧
        ws.main.shape.Widens f ∧ ws.Reshaped f ws') (· = ws) :=
  ends_renameParameter_of h fun hp hkind _ _ huses hws₁ hshape hflyout =>
    (ends_finishEdit hws₁ fun _ hc => hc.elim).imp (fun _ _ ⟨hws', hpruned⟩ =>
      ⟨hws', _, _, hp, widens_renaming h.1.1.toWired hp hkind huses,
        hpruned.reshaped hshape hflyout⟩) fun _ => id

/-- What changing a number of arguments does to a kind does not depend on the number. -/
theorem sound_mapArity (f : Nat → Nat) (hsound : p.Sound) :
    Ports.Sound { p with kind := p.kind.mapArity f } := by
  obtain ⟨kind, output, inputs⟩ := p
  cases kind <;> exact ⟨hsound.unrepeated, hsound.known, hsound.output⟩

theorem mapArity_of_function {kind : BlockKind} (f : Nat → Nat)
    (h : (kind.mapArity f).function?.isSome) : kind.mapArity f = kind ∧ kind.function?.isSome := by
  cases kind <;> simp_all [BlockKind.mapArity, BlockKind.function?]

theorem ends_mapArity (h : ws.Settled loose) {loose' : Set BlockId} (hsub : loose ⊆ loose')
    (hb : b ∈ loose') (hp : ws.main.shape.ports b = some p) (f : Nat → Nat) :
    Ends (setKind b (·.mapArity f)) ws (fun _ ws' => ws'.Settled loose' ∧
      ws'.main.shape = ws.main.shape.setPorts b (some { p with kind := p.kind.mapArity f }) ∧
      ws'.flyout = ws.flyout) fun _ => False := by
  refine (ends_setKind h hp (·.mapArity f)).imp (fun _ ws' ⟨hflyout, htyped, hshape⟩ => ?_)
    fun _ => id
  refine ⟨h.main ?_ htyped hflyout, hshape, hflyout⟩
  rw [hshape]
  refine h.1.1.setKind hsub hp (sound_mapArity f (h.1.1.sound hp)) fun hfun => ?_
  obtain ⟨hsame, hfunction⟩ := mapArity_of_function f (hfun hb)
  rw [hsame]
  exact h.1.1.fits hp fun _ => hfunction

theorem slots_subset_mapArity {f : Nat → Nat} (hf : ∀ n, n ≤ f n) (kind : BlockKind) :
    kind.slots ⊆ (kind.mapArity f).slots := by
  cases kind with
  | operator name arity => exact List.map_subset _ (List.range_subset.2 (hf arity))
  | _ => exact List.Subset.refl _

/-- Calls that get more arguments are loose from then on. -/
theorem ends_mapArities {callers : List BlockId} (h : ws.Settled ∅)
    (hlive : ∀ c ∈ callers, ∃ q, ws.main.shape.ports c = some q) {f : Nat → Nat}
    (hf : ∀ n, n ≤ f n) :
    Ends (callers.forM fun caller => setKind caller (·.mapArity f)) ws
      (fun _ ws' => ws'.Settled {c | c ∈ callers} ∧ ws'.flyout = ws.flyout ∧
        ∃ r, ws.main.shape.Widens r ∧ ws'.main.shape = ws.main.shape.rekind r)
      fun _ => False := by
  let I : List BlockId → Workspace → Prop := fun rest ws' =>
    (ws'.Settled {c | c ∈ callers} ∧ ws'.flyout = ws.flyout ∧
      ∃ r, ws.main.shape.Widens r ∧ ws'.main.shape = ws.main.shape.rekind r) ∧
      ∀ c ∈ rest, c ∈ callers
  have hstart : I callers ws := by
    refine ⟨⟨h.mono (Set.empty_subset _), rfl, fun _ kind => kind, ?_, ?_⟩, fun _ => id⟩
    · exact fun _ _ _ => List.Subset.refl _
    · simp [rekind]
  refine (Ends.forM (fun c rest ws' ⟨⟨hws', hflyout, r, hwidens, hshape⟩, hrest⟩ => ?_) hstart).imp
    (fun _ _ => And.left) fun _ => id
  rw [List.forall_mem_cons] at hrest
  obtain ⟨q, hq⟩ : ∃ q, ws'.main.shape.ports c = some q :=
    hshape ▸ exists_ports_rekind.2 (hlive c hrest.1)
  refine (ends_mapArity hws' (Set.Subset.refl _) hrest.1 hq f).imp
    (fun _ ws₁ ⟨hws₁, hshape₁, hflyout₁⟩ =>
      ⟨⟨hws₁, hflyout₁.trans hflyout, ?_⟩, hrest.2⟩) fun _ => id
  have hmore := widens_of_subset hq (slots_subset_mapArity hf q.kind)
  rw [setPorts_eq_rekind hq] at hshape₁
  rw [hshape] at hmore hshape₁
  exact ⟨_, hwidens.trans hmore, hshape₁.trans (rekind_rekind _ _)⟩

theorem ends_addParameter (h : ws.Settled ∅) (b : BlockId) (param : String) :
    Ends (addParameter b param) ws
      (fun _ ws' => ws'.Settled ∅ ∧ ∃ p f, ws.main.shape.ports b = some p ∧
        ws.main.shape.Widens f ∧ ws.Reshaped f ws') (· = ws) := by
  rw [addParameter, ends_bind]
  refine (ends_functionAt b).imp (fun f ws' ⟨hws', p, hp, hkind⟩ => ?_) fun _ => id
  subst hws'
  obtain ⟨name, params⟩ := f
  dsimp only
  split
  · rfl
  · rw [ends_bind]
    refine (ends_setFunction h hp hkind _).imp (fun _ ws₁ ⟨hws₁, hshape, hflyout⟩ => ?_)
      fun _ => False.elim
    rw [ends_bind, ends_get, ends_bind]
    have hlive : ∀ c ∈ ws₁.main.callersOf name, ∃ q, ws₁.main.shape.ports c = some q := by
      intro c hc
      rw [Graph.callersOf, List.mem_filter] at hc
      exact Graph.mem_world.1 (List.mem_toFinset.2 hc.1)
    refine (ends_mapArities hws₁ hlive fun n => Nat.le_succ n).imp
      (fun _ ws₂ ⟨hws₂, hflyout₂, r, hwidens, hshape₂⟩ => ?_) fun _ => False.elim
    rw [setPorts_eq_rekind hp] at hshape
    have hfunction : ws'.main.shape.Widens
        fun c kind => if c = b then .function name (params ++ [param]) else kind := by
      refine widens_of_subset hp ?_
      rw [hkind]
      exact List.Subset.refl _
    refine (ends_finishEdit hws₂ fun c hc => ⟨List.mem_cons_of_mem b hc, ?_⟩).imp
      (fun _ ws₃ ⟨hws₃, hpruned⟩ => ⟨hws₃, _, _, hp, hfunction.trans (hshape ▸ hwidens),
        hpruned.reshaped ?_ (hflyout₂.trans hflyout)⟩) fun _ => False.elim
    · exact hshape₂ ▸ exists_ports_rekind.2 (hlive c hc)
    · rw [hshape₂, hshape, rekind_rekind]

end WorkspaceM

end Plugboard
