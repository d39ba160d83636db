import Plugboard.Proofs.InferenceCompletes
import Plugboard.Proofs.Pruning
import Plugboard.Proofs.Rebuilding

/-!
# Workspaces whose canvases are regular

An edit first changes kinds and links and then makes the sockets around them anew. In between,
blocks of the main canvas may be loose; the renewal reaches all of them, for it cannot fail
before it has. It takes away the inputs that the kinds have no slots for any more, and nothing else.
-/

namespace Plugboard

open Shape

namespace Workspace

/-- Both canvases are regular, and on the main one some blocks may be loose. -/
def Settled (loose : Set BlockId) : Workspace → Prop :=
  Shaped fun main flyout => main.Regular loose ∧ flyout.Regular ∅

namespace Settled

variable {ws ws' : Workspace} {loose loose' : Set BlockId}

theorem mono (h : ws.Settled loose) (hsub : loose ⊆ loose') : ws.Settled loose' :=
  ⟨⟨h.1.1.mono hsub, h.1.2⟩, h.2⟩

/-- A change of the main canvas. -/
theorem main (h : ws.Settled loose) (hregular : ws'.main.shape.Regular loose')
    (htyped : ws'.main.Typed) (hflyout : ws'.flyout = ws.flyout) : ws'.Settled loose' :=
  ⟨⟨hregular, hflyout ▸ h.1.2⟩, htyped, hflyout ▸ h.2.2⟩

end Settled

/-- Blocks of the main canvas have been made anew, and the palette is as it was. -/
def Pruned (ws ws' : Workspace) : Prop :=
  ws.main.shape.Pruned ws'.main.shape ∧ ws'.flyout = ws.flyout

namespace Pruned

variable {ws ws' ws'' : Workspace}

theorem refl (h : ws.main.shape.Linked) : ws.Pruned ws := ⟨.refl h, rfl⟩

theorem trans (h : ws.Pruned ws') (h' : ws'.Pruned ws'') (hws : ws.main.shape.Wired) :
    ws.Pruned ws'' :=
  ⟨h.1.trans h'.1 hws, h'.2.trans h.2⟩

/-- The same sockets, plugged together in the same way. -/
theorem of_shape (hws : ws.main.shape.Linked) (hshape : ws'.main.shape = ws.main.shape)
    (hflyout : ws'.flyout = ws.flyout) : ws.Pruned ws' := by
  refine ⟨?_, hflyout⟩
  rw [hshape]
  exact .refl hws

end Pruned

theorem block_of_functionNamed? {ws : Workspace} {name : String} {b : BlockId}
    {params : List String} (h : ws.functionNamed? name = some (b, params)) :
    ∃ block, ws.main.blocks[b]? = some block ∧ block.kind = .function name params := by
  obtain ⟨f, hfind, hf⟩ := Option.map_eq_some_iff.1 h
  cases hf
  have hname : f.2.1 = name := by simpa using List.find?_some hfind
  exact hname ▸ block_of_mem_functions (List.mem_of_find?_eq_some hfind)

/-- The type of a function can be read, for its result slot is there. -/
theorem exists_functionScheme?_eq {ws : Workspace} {loose : Set BlockId}
    (h : ws.main.shape.Regular loose) (name : String) :
    ∃ scheme?, ws.functionScheme? name = .ok scheme? := by
  rw [functionScheme?]
  cases hfind : ws.functionNamed? name with
  | none => exact ⟨none, rfl⟩
  | some found =>
      obtain ⟨b, params⟩ := found
      obtain ⟨block, hblock, hkind⟩ := block_of_functionNamed? hfind
      have hp : ws.main.shape.ports b = some ⟨block.kind, block.output, block.inputs⟩ :=
        Graph.shape_ports_eq_some.2 ⟨block, hblock, rfl⟩
      have hfunction : block.kind.function?.isSome := by rw [hkind]; rfl
      have hresult : Slot.result ∈ block.kind.slots := by
        rw [hkind]
        exact List.mem_singleton_self _
      obtain ⟨s, hs⟩ := h.exists_site hp (fun _ => hfunction) hresult
      obtain ⟨socket, hsocket, -⟩ := Graph.shape_site_eq_some.1 hs
      have hinput := (Graph.inputNamed_eq_ok h.toWired hp).2 hs
      have hty : ws.main.socketTy s = .ok socket.ty := by
        rw [Graph.socketTy, Graph.socket, hsocket]
        rfl
      cases hargs : params.mapM (block.params[·]?) with
      | none =>
          exact ⟨none, by simp [Graph.block, hblock, bind, Except.bind, hargs, pure, Except.pure]⟩
      | some args =>
          refine ⟨socket.ty.map fun result => .closed (.curried args result), ?_⟩
          simp [Graph.block, hblock, bind, Except.bind, hargs, hinput, hty, pure, Except.pure]

end Workspace

namespace WorkspaceM

open Workspace

variable {ws : Workspace} {loose : Set BlockId} {b : BlockId} {p : Ports}

theorem ends_renew (h : ws.Settled loose) (hp : ws.main.shape.ports b = some p) :
    Ends (renew b) ws
      (fun _ ws' => (∃ inputs, Refit b p inputs p.kind.slots ws.main.shape ws'.main.shape) ∧
        ws'.main.Typed ∧ ws'.flyout = ws.flyout) fun _ => False := by
  obtain ⟨block, hblock, rfl⟩ := Graph.shape_ports_eq_some.1 hp
  have hsound := h.1.1.sound hp
  rw [renew]
  simp only [ends_bind, ends_ask, Graph.block, hblock]
  refine (ends_layoutFor ws block.kind).imp (fun layout ws' hended => ?_) fun ws' hfail => ?_
  · obtain ⟨hfits, _, pool, rfl⟩ := hended
    rw [ends_onMain]
    have hreplace := GraphM.ends_replaceSockets h.1.1.toWired hp
      (hfits.output.trans hsound.output.symm)
    refine (hreplace.and (GraphM.every_replaceSockets b layout.every_true ws.main h.2.1)).imp
      (fun _ g hended => ?_) fun _ => And.left
    obtain ⟨⟨inputs, hrefit⟩, htyped⟩ := hended
    rw [hfits.slots] at hrefit
    exact ⟨⟨inputs, hrefit⟩, htyped, rfl⟩
  · exact hfail.2 ⟨hsound.known, exists_functionScheme?_eq h.1.1⟩

/-- Blocks that are renewed one after the other are not loose any more. -/
theorem ends_renew_all {bs : List BlockId} (h : ws.Settled loose)
    (hlive : ∀ b ∈ bs, ∃ p, ws.main.shape.ports b = some p) :
    Ends (bs.mapM renew) ws
      (fun _ ws' => ws'.Settled (loose \ {b | b ∈ bs}) ∧ ws.Pruned ws') fun _ => False := by
  let I : List BlockId → Workspace → Prop := fun rest ws' =>
    ws'.Settled {b ∈ loose | b ∈ bs → b ∈ rest} ∧ ws.Pruned ws' ∧ ∀ b ∈ rest, b ∈ bs
  have hstart : I bs ws := ⟨h.mono fun b hb => ⟨hb, id⟩, .refl h.1.1.toLinked, fun _ => id⟩
  refine (Ends.mapM (I := I) (fun b rest ws' ⟨hws', hpruned, hrest⟩ => ?_) hstart).imp
    (fun _ ws' ⟨hws', hpruned, _⟩ => ⟨hws'.mono fun b hb => ⟨hb.1, fun hmem => ?_⟩, hpruned⟩)
    fun _ => id
  · rw [List.forall_mem_cons] at hrest
    obtain ⟨p, hp⟩ := hpruned.1.live_iff.2 (hlive b hrest.1)
    refine (ends_renew hws' hp).imp (fun _ ws'' ⟨⟨inputs, hrefit⟩, htyped, hflyout⟩ =>
      ⟨?_, hpruned.trans ⟨hrefit.pruned hp, hflyout⟩ h.1.1.toWired, hrest.2⟩) fun _ => id
    refine hws'.main ((hws'.1.1.refit hp hrefit).mono ?_) htyped hflyout
    rintro c ⟨⟨hc, hmem⟩, hne⟩
    exact ⟨hc, fun hcs => (List.mem_cons.1 (hmem hcs)).resolve_left hne⟩
  · exact List.not_mem_nil (hb.2 hmem)

theorem ends_reset (h : ws.Settled loose) {members : BlockSet}
    (hlive : ∀ b ∈ members, ∃ p, ws.main.shape.ports b = some p) :
    Ends (reset members) ws
      (fun _ ws' => ws'.Settled (loose \ {b | b ∈ members}) ∧ ws.Pruned ws') fun _ => False := by
  have hmem : ∀ {b}, b ∈ members.toList ↔ b ∈ members := Std.ExtTreeSet.mem_toList
  rw [reset, ends_bind]
  refine (ends_renew_all h fun b hb => hlive b (hmem.1 hb)).imp (fun _ ws' ⟨hws', hpruned⟩ => ?_)
    fun _ => False.elim
  replace hws' : ws'.Settled (loose \ {b | b ∈ members}) :=
    hws'.mono fun b hb => ⟨hb.1, fun hmembers => hb.2 (hmem.2 hmembers)⟩
  rw [ends_bind, ends_ask, Graph.linkAgreement_linksWithin_eq hws'.1.1.toLinked]
  dsimp only
  rw [ends_bind, ends_onMain, ends_modify]
  have hshape := Graph.shape_applyTo (g := ws'.main)
    (ws'.main.linkAgreed (ws'.main.linksWithin members)) members
  refine ⟨hws'.main ?_ (hws'.2.1.applyTo (fun _ _ => trivial) members) rfl, ?_⟩
  · exact hshape.symm ▸ hws'.1.1
  · exact hpruned.trans (.of_shape hws'.1.1.toLinked hshape rfl) h.1.1.toWired

theorem ends_componentsOf (h : ws.main.shape.Wired) (bs : List BlockId) :
    Ends (componentsOf bs) ws
      (fun found ws' => ws' = ws ∧ (∀ c ∈ found, ∃ p, ws.main.shape.ports c = some p) ∧
        ∀ b ∈ bs, ∀ p, ws.main.shape.ports b = some p →
          ∀ c, ws.main.shape.Connected b c → c ∈ found) fun _ => False := by
  have hlive : ∀ b ∈ bs.filter ws.main.contains, ∃ p, ws.main.shape.ports b = some p := by
    intro b hb
    exact Graph.contains_iff.1 (List.mem_filter.1 hb).2
  obtain ⟨found, hrun, hfound⟩ := Graph.exists_components_eq h hlive
  rw [componentsOf, ends_ask, hrun]
  refine ⟨rfl, fun c hc => ?_, fun b hb p hp c hbc => (hfound c).2 ⟨b, ?_, hbc⟩⟩
  · obtain ⟨b, hb, hbc⟩ := (hfound c).1 hc
    exact h.ports_of_connected (hlive b hb) hbc
  · exact List.mem_filter.2 ⟨hb, Graph.contains_iff.2 ⟨p, hp⟩⟩

theorem completes_requestSweep : Completes (Settled loose) requestSweep := fun _ => id

/-- Nothing that is inferred makes the canvases irregular. -/
theorem settled_of_completes {α : Type} {x : WorkspaceM α} (h : ws.Settled ∅)
    (hx : Completes (OfShape ws.main.shape ws.flyout.shape) x) :
    Ends x ws (fun _ => Settled ∅) fun _ => False := by
  refine (hx ws ⟨⟨rfl, rfl⟩, h.2⟩).imp (fun _ ws' hws' => ⟨⟨?_, ?_⟩, hws'.2⟩) fun _ => id
  · exact hws'.1.1 ▸ h.1.1
  · exact hws'.1.2 ▸ h.1.2

theorem preserves_flyout {α : Type} {flyout : Graph} (action : GraphM α) :
    Preserves (·.flyout = flyout) (onMain action) := by
  intro ws hws
  rw [ends_onMain]
  unfold Ends
  split <;> exact hws

/-- What is inferred goes on the main canvas. -/
theorem steady_flyout {sh : Shape} (hsh : sh.Regular ∅) (flyout : Graph) :
    Steady sh flyout.shape (fun _ => True)
      fun ws => ws.OfShape sh flyout.shape ∧ ws.flyout = flyout where
  ofShape := And.left
  joins _ _ _ _ := trivial
  warn root e := (completes_warn root e).and (.modify fun _ => id)
  clear hb := (completes_setWarning hb none).and (preserves_flyout _)
  keep {ws origin types pool} hws hfinding := by
    have hkept := (Steady.of_shape hsh).keep hws.1 hfinding
    have hflyout : Preserves (·.flyout = flyout) (annotate types) :=
      .bind (preserves_flyout _) fun _ => .modify fun _ => id
    exact ⟨hws, (hkept.2.and (hflyout _ hws.2)).imp (fun _ _ => id) fun _ => And.left⟩

/-- Inference changes neither canvas but for types and warnings on the main one. -/
theorem ends_infer (h : ws.Settled ∅) :
    Ends infer ws (fun _ ws' => ws'.Settled ∅ ∧ ws.Pruned ws') fun _ => False := by
  have hinfer := (steady_flyout h.1.1 ws.flyout).completes_infer h.1.1
  refine (hinfer ws ⟨⟨⟨rfl, rfl⟩, h.2⟩, rfl⟩).imp (fun _ ws' hended => ?_) fun _ => id
  obtain ⟨⟨⟨hshape, -⟩, htyped, -⟩, hflyout⟩ := hended
  exact ⟨h.main (hshape ▸ h.1.1) htyped hflyout, .of_shape h.1.1.toLinked hshape hflyout⟩

theorem settled_infer : Completes (Settled ∅) infer := fun _ h =>
  (ends_infer h).imp (fun _ _ => And.left) fun _ => id

/-- Blocks that were loose are renewed with all that is plugged together with them. -/
theorem ends_finishEdit (h : ws.Settled loose) {touched : List BlockId}
    (hloose : ∀ b ∈ loose, b ∈ touched ∧ ∃ p, ws.main.shape.ports b = some p) :
    Ends (finishEdit touched) ws (fun _ ws' => ws'.Settled ∅ ∧ ws.Pruned ws') fun _ => False := by
  have hwired := h.1.1.toWired
  have hrest : ∀ ws', ws'.Settled ∅ ∧ ws.Pruned ws' →
      Ends (do let report ← infer; requestSweep; return report) ws'
        (fun _ ws'' => ws''.Settled ∅ ∧ ws.Pruned ws'') fun _ => False := by
    intro ws' ⟨hws', hpruned⟩
    rw [ends_bind]
    exact (ends_infer hws').imp
      (fun _ ws'' ⟨hws'', hinfer⟩ => ⟨hws'', hpruned.trans hinfer hwired⟩) fun _ => id
  rw [finishEdit, ends_bind]
  refine (ends_componentsOf hwired touched).imp (fun members ws' ⟨hws', hlive, hmem⟩ => ?_)
    fun _ => id
  subst hws'
  have hnone : loose \ {b | b ∈ members} ⊆ ∅ := fun b ⟨hb, hout⟩ => by
    obtain ⟨htouched, p, hp⟩ := hloose b hb
    exact hout (hmem b htouched p hp b .refl)
  rw [ends_bind]
  refine (ends_reset h hlive).imp (fun detached ws₁ ⟨hws₁, hpruned⟩ => ?_) fun _ => id
  replace hws₁ := hws₁.mono hnone
  rw [ends_bind]
  refine (ends_componentsOf hws₁.1.1.toWired detached).imp (fun found ws₂ ⟨hws₂, hlive', _⟩ => ?_)
    fun _ => id
  subst hws₂
  dsimp only
  split
  · have hshed : ∀ c ∈ found \ members, ∃ p, ws₂.main.shape.ports c = some p := fun c hc =>
      hlive' c (Std.ExtTreeSet.mem_diff_iff.1 hc).1
    rw [ends_bind]
    refine (ends_reset hws₁ hshed).imp (fun _ ws₃ ⟨hws₃, hpruned'⟩ => hrest ws₃ ⟨?_, ?_⟩)
      fun _ => id
    · exact hws₃.mono Set.sdiff_subset
    · exact hpruned.trans hpruned' hwired
  · exact hrest ws₂ ⟨hws₁, hpruned⟩

end WorkspaceM

end Plugboard
