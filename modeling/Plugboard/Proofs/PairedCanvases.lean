import Plugboard.Proofs.PairedLayouts
import Plugboard.Proofs.SameShape

/-!
# Canvases that differ in names

Two canvases with the same blocks, links and warned blocks, and with paired types. Every question
about them has the same answer or a paired one, and every edit that is made on both of them leaves
such canvases behind.
-/

namespace Plugboard

namespace Pairing

/-- The sockets have the same place and peer, and paired types. -/
structure Sockets (p : Pairing) (x x' : Socket) : Prop extends x.SameSite x' where
  ty : Option.Rel p.Types x.ty x'.ty

/-- The blocks have the same ground kind and the same sockets, paired type parameters, and both or
none of them a warning. -/
structure Blocks (p : Pairing) (x x' : Block) : Prop extends x.SamePorts x' where
  ground : x.kind.Ground
  params : Related p.Types x.params x'.params
  warned : x'.warning.isSome = x.warning.isSome

/-- The canvases differ in the names of type variables and in the texts of warnings. -/
structure Canvases (p : Pairing) (g g' : Graph) : Prop where
  blocks : Related p.Blocks g.blocks g'.blocks
  sockets : Related p.Sockets g.sockets g'.sockets
  nextBlock : g'.nextBlock = g.nextBlock
  nextSocket : g'.nextSocket = g.nextSocket

variable {p : Pairing} {g g' : Graph}

theorem lasting_types? : Lasting fun p : Pairing => Option.Rel p.Types := by
  intro p q t t' hle h
  cases h with
  | none => exact .none
  | some h => exact .some (lasting_types hle h)

theorem lasting_params :
    Lasting fun (p : Pairing) (ts ts' : Std.ExtTreeMap String Ty) => Related p.Types ts ts' :=
  fun hle h => h.imp fun _ _ => lasting_types hle

theorem lasting_canvases : Lasting Canvases := fun hle h =>
  ⟨h.blocks.imp fun _ _ hx => ⟨hx.toSamePorts, hx.ground, lasting_params hle hx.params, hx.warned⟩,
    h.sockets.imp fun _ _ hx => ⟨hx.toSameSite, lasting_types? hle hx.ty⟩, h.nextBlock,
    h.nextSocket⟩

/-- Types that are kept at the same places. -/
abbrev Placed (p : Pairing) : List (Place × Ty) → List (Place × Ty) → Prop :=
  List.Forall₂ fun e e' => e.1 = e'.1 ∧ p.Types e.2 e'.2

namespace Canvases

variable (h : p.Canvases g g')

include h

theorem sameShape : g.SameShape g' :=
  ⟨h.blocks.imp fun _ _ => Blocks.toSamePorts, h.sockets.imp fun _ _ => Sockets.toSameSite,
    h.nextBlock, h.nextSocket⟩

theorem block (b : BlockId) : Outcomes p.Blocks Eq (g.block b) (g'.block b) := by
  have hb := h.blocks b
  rw [Graph.block, Graph.block]
  generalize g.blocks[b]? = x at hb ⊢
  generalize g'.blocks[b]? = x' at hb ⊢
  cases hb with
  | none => exact .error rfl
  | some hx => exact .ok hx

theorem socketTy (s : SocketId) :
    Outcomes (Option.Rel p.Types) Eq (g.socketTy s) (g'.socketTy s) := by
  have hs := h.sockets s
  rw [Graph.socketTy, Graph.socketTy, Graph.socket, Graph.socket]
  generalize g.sockets[s]? = x at hs ⊢
  generalize g'.sockets[s]? = x' at hs ⊢
  cases hs with
  | none => exact .error rfl
  | some hx => exact .ok hx.ty

theorem placeTy (place : Place) :
    Outcomes (Option.Rel p.Types) Eq (g.placeTy place) (g'.placeTy place) := by
  cases place with
  | socket s => exact h.socketTy s
  | param b name => exact (h.block b).map fun _ _ hx => hx.params name

theorem places (tag : Tag) {t t' : Ty} (ht : p.Types t t') :
    Outcomes p.Placed Eq (g.places tag t) (g'.places tag t') := by
  cases tag with
  | socket s =>
      have hcontains : g'.sockets.contains s = g.sockets.contains s := by
        rw [← Std.ExtTreeMap.isSome_getElem?_eq_contains,
          ← Std.ExtTreeMap.isSome_getElem?_eq_contains]
        have hs := h.sockets s
        generalize g.sockets[s]? = x at hs ⊢
        generalize g'.sockets[s]? = x' at hs ⊢
        cases hs <;> rfl
      rw [Graph.places, Graph.places, hcontains]
      split
      · exact .ok (.cons ⟨rfl, ht⟩ .nil)
      · exact .ok .nil
  | block b =>
      refine (h.block b).bind fun x x' hx => ?_
      rw [hx.output, hx.kind, h.sameShape.inputNamed_eq]
      cases x.output with
      | some output => exact .ok (.cons ⟨rfl, ht⟩ .nil)
      | none =>
          cases x.kind.function? with
          | none => exact .ok .nil
          | some f =>
              obtain ⟨name, params⟩ := f
              obtain ⟨hargs, hrest⟩ := ht.uncurry params.length
              refine (Outcomes.eq_iff.2 rfl).bind fun result _ hresult => .ok ?_
              refine List.rel_append ?_ (.cons ⟨congrArg Place.socket hresult, hrest⟩ .nil)
              rw [← List.map_uncurry_zip_eq_zipWith, ← List.map_uncurry_zip_eq_zipWith]
              refine List.forall₂_map_left_iff.2 (List.forall₂_map_right_iff.2 ?_)
              exact (forall₂_zip (List.forall₂_refl params) hargs).imp fun _ _ h =>
                ⟨congrArg (Place.param b) h.1, h.2⟩

theorem followers {placed placed' : List (Place × Ty)} (hplaced : p.Placed placed placed')
    (blocks : BlockSet) : p.Placed (g.followers placed blocks) (g'.followers placed' blocks) := by
  rw [Graph.followers, Graph.followers, h.sameShape.linksWithin_eq]
  have houtputs : ∀ output : Place × Ty → Option (SocketId × Ty),
      (∀ s t, output (.socket s, t) = some (s, t)) →
      (∀ b name t, output (.param b name, t) = none) → Related p.Types
        (.ofList (placed.filterMap output) : Std.ExtTreeMap SocketId Ty)
        (.ofList (placed'.filterMap output)) := by
    intro output hsocket hparam
    refine .ofList (List.rel_filterMap ?_ hplaced)
    rintro ⟨place, t⟩ ⟨_, t'⟩ ⟨rfl, ht⟩
    cases place with
    | socket s =>
        rw [hsocket, hsocket]
        exact .some ⟨rfl, ht⟩
    | param b name =>
        rw [hparam, hparam]
        exact .none
  refine List.rel_filterMap (R := Eq) ?_ (List.forall₂_refl _)
  rintro ⟨output, input⟩ _ rfl
  exact rel_map (houtputs _ (fun _ _ => rfl) (fun _ _ _ => rfl) output) fun _ _ ht => ⟨rfl, ht⟩

theorem agreement {placed placed' : List (Place × Ty)} (hplaced : p.Placed placed placed') :
    Outcomes p.Substs Eq (g.agreement placed) (g'.agreement placed') := by
  refine Outcomes.foldlM hplaced ?_ .empty
  rintro ⟨place, t⟩ ⟨_, t'⟩ ⟨rfl, ht⟩ s s' hs
  refine (h.placeTy place).bind fun kept kept' hkept => ?_
  cases hkept with
  | none => exact .ok hs
  | some hkept => exact .ok (hs.reconcile ht hkept)

theorem linkAgreement (links : List (SocketId × SocketId)) :
    Outcomes p.Substs Eq (g.linkAgreement links) (g'.linkAgreement links) := by
  refine Outcomes.foldlM (A := Eq) (List.forall₂_refl links) ?_ .empty
  rintro ⟨output, input⟩ _ rfl s s' hs
  refine (h.socketTy output).bind fun a a' ha => (h.socketTy input).bind fun b b' hb => ?_
  cases ha with
  | none => exact .ok hs
  | some ha =>
      cases hb with
      | none => exact .ok hs
      | some hb => exact .ok (hs.reconcile ha hb)

theorem applyTo {s s' : Subst} (hs : p.Substs s s') (blocks : BlockSet) :
    p.Canvases (g.applyTo s blocks) (g'.applyTo s' blocks) := by
  refine ⟨h.blocks.map fun b x x' hx => ?_, h.sockets.map fun _ x x' hx => ?_, h.nextBlock,
    h.nextSocket⟩
  · split
    · exact ⟨⟨hx.kind, hx.output, hx.inputs⟩, hx.ground, hx.params.map fun _ _ _ => hs.apply,
        hx.warned⟩
    · exact hx
  · rw [hx.block]
    split
    · exact ⟨⟨rfl, hx.role, hx.peer⟩, rel_map hx.ty fun _ _ => hs.apply⟩
    · exact hx

theorem modifyBlock (b : BlockId) {f f' : Block → Block}
    (hf : ∀ x x', p.Blocks x x' → p.Blocks (f x) (f' x')) :
    p.Canvases (g.modifyBlock b f) (g'.modifyBlock b f') :=
  ⟨h.blocks.modify b hf, h.sockets, h.nextBlock, h.nextSocket⟩

theorem modifySocket (s : SocketId) {f f' : Socket → Socket}
    (hf : ∀ x x', p.Sockets x x' → p.Sockets (f x) (f' x')) :
    p.Canvases (g.modifySocket s f) (g'.modifySocket s f') :=
  ⟨h.blocks, h.sockets.modify s hf, h.nextBlock, h.nextSocket⟩

theorem setPeer (s : SocketId) (peer : Option SocketId) :
    p.Canvases (g.setPeer s peer) (g'.setPeer s peer) :=
  h.modifySocket s fun _ _ hx => ⟨⟨hx.block, hx.role, rfl⟩, hx.ty⟩

theorem eraseSocket (s : SocketId) : p.Canvases (g.eraseSocket s) (g'.eraseSocket s) :=
  ⟨h.blocks, h.sockets.erase s, h.nextBlock, h.nextSocket⟩

theorem addSocket (b : BlockId) (role : Role) {t t' : Ty} (ht : p.Types t t') :
    (g.addSocket b role t).1 = (g'.addSocket b role t').1 ∧
      p.Canvases (g.addSocket b role t).2 (g'.addSocket b role t').2 := by
  simp only [Graph.addSocket, h.nextSocket, true_and]
  exact ⟨h.blocks, h.sockets.insert _ ⟨⟨rfl, rfl, rfl⟩, .some ht⟩, h.nextBlock, rfl⟩

theorem addInputs (b : BlockId) {entries entries' : List (String × Ty)}
    (hentries : p.Entries entries entries') :
    (g.addInputs b entries).1 = (g'.addInputs b entries').1 ∧
      p.Canvases (g.addInputs b entries).2 (g'.addInputs b entries').2 := by
  induction hentries generalizing g g' with
  | nil => exact ⟨rfl, h⟩
  | @cons e e' _ _ he _ ih =>
      obtain ⟨slot, t⟩ := e
      obtain ⟨_, t'⟩ := e'
      obtain ⟨rfl, ht⟩ := he
      obtain ⟨hs, hg⟩ := h.addSocket b (.input slot) ht
      obtain ⟨hss, hg⟩ := ih hg
      exact ⟨congrArg₂ List.cons hs hss, hg⟩

theorem addBlock {kind : BlockKind} (hkind : kind.Ground) {layout layout' : Layout}
    (hlayout : p.Layouts layout layout') :
    (g.addBlock kind layout).1 = (g'.addBlock kind layout').1 ∧
      p.Canvases (g.addBlock kind layout).2 (g'.addBlock kind layout').2 := by
  have hfinish : ∀ {g₁ g₁' : Graph} {output output' : Option SocketId}, p.Canvases g₁ g₁' →
      output = output' → p.Canvases
        { (g₁.addInputs ⟨g.nextBlock⟩ layout.inputs).2 with
          blocks := (g₁.addInputs ⟨g.nextBlock⟩ layout.inputs).2.blocks.insert ⟨g.nextBlock⟩
            ⟨kind, output, (g₁.addInputs ⟨g.nextBlock⟩ layout.inputs).1, layout.params, none⟩
          nextBlock := (g₁.addInputs ⟨g.nextBlock⟩ layout.inputs).2.nextBlock + 1 }
        { (g₁'.addInputs ⟨g.nextBlock⟩ layout'.inputs).2 with
          blocks := (g₁'.addInputs ⟨g.nextBlock⟩ layout'.inputs).2.blocks.insert ⟨g.nextBlock⟩
            ⟨kind, output', (g₁'.addInputs ⟨g.nextBlock⟩ layout'.inputs).1, layout'.params, none⟩
          nextBlock := (g₁'.addInputs ⟨g.nextBlock⟩ layout'.inputs).2.nextBlock + 1 } := by
    rintro g₁ g₁' output _ hg rfl
    obtain ⟨hss, hg⟩ := hg.addInputs ⟨g.nextBlock⟩ hlayout.inputs
    refine ⟨hg.blocks.insert _ ⟨⟨rfl, rfl, hss.symm⟩, hkind, hlayout.params, rfl⟩, hg.sockets, ?_,
      hg.nextSocket⟩
    exact congrArg (· + 1) hg.nextBlock
  simp only [Graph.addBlock, h.nextBlock]
  have houtput := hlayout.output
  generalize layout.output = output at houtput
  generalize layout'.output = output' at houtput
  cases houtput with
  | none => exact ⟨trivial, hfinish h rfl⟩
  | some ht =>
      obtain ⟨hs, hg⟩ := h.addSocket ⟨g.nextBlock⟩ .output ht
      exact ⟨trivial, hfinish hg (congrArg some hs)⟩

end Canvases

/-- Edits of paired canvases. -/
abbrev Edits {α α' : Type} (p : Pairing) (x : GraphM α) (x' : GraphM α')
    (R : α → α' → Prop) : Prop :=
  Parallel (W := PUnit) (fun _ => p.Canvases) (fun _ => Eq) ⟨⟩ x x' fun _ => R

open GraphM

section

variable {α α' : Type}

theorem edits_ask {f : Graph → Except Fault α} {f' : Graph → Except Fault α'}
    {R : α → α' → Prop} (h : ∀ g g', p.Canvases g g' → Outcomes R Eq (f g) (f' g')) :
    p.Edits (ask f) (ask f') R := by
  refine Parallel.get.bind fun _ g g' _ hg => ?_
  have hfg := h g g' hg
  generalize f g = r at hfg ⊢
  generalize f' g' = r' at hfg ⊢
  cases hfg with
  | ok ha => exact .pure ha
  | error he => exact .throw he

/-- A question about the shape. -/
theorem edits_ask_eq {f : Graph → Except Fault α}
    (h : ∀ g g', p.Canvases g g' → f g' = f g) : p.Edits (ask f) (ask f) Eq :=
  edits_ask fun g g' hg => Outcomes.eq_iff.2 (h g g' hg).symm

theorem edits_askSocket (s : SocketId) :
    p.Edits (ask (·.socket s)) (ask (·.socket s)) Socket.SameSite :=
  edits_ask fun _ _ hg => hg.sameShape.socket s

theorem edits_askBlock (b : BlockId) : p.Edits (ask (·.block b)) (ask (·.block b)) p.Blocks :=
  edits_ask fun _ _ hg => hg.block b

theorem edits_modify {f f' : Graph → Graph}
    (h : ∀ g g', p.Canvases g g' → p.Canvases (f g) (f' g')) :
    p.Edits (modify f) (modify f') Eq :=
  .modify h rfl

theorem edits_act {f : Graph → α × Graph} {f' : Graph → α' × Graph} {R : α → α' → Prop}
    (h : ∀ g g', p.Canvases g g' → R (f g).1 (f' g').1 ∧ p.Canvases (f g).2 (f' g').2) :
    p.Edits (act f) (act f') R :=
  .modifyGet fun g g' hg => ⟨⟨⟩, le_rfl, h g g' hg⟩

theorem edits_updateSocket (s : SocketId) {f f' : Socket → Socket}
    (hf : ∀ x x', p.Sockets x x' → p.Sockets (f x) (f' x')) :
    p.Edits (updateSocket s f) (updateSocket s f') Eq :=
  (edits_askSocket s).bind fun _ _ _ _ _ => edits_modify fun _ _ hg => hg.modifySocket s hf

theorem edits_updateBlock (b : BlockId) {f f' : Block → Block}
    (hf : ∀ x x', p.Blocks x x' → p.Blocks (f x) (f' x')) :
    p.Edits (updateBlock b f) (updateBlock b f') Eq :=
  (edits_askBlock b).bind fun _ _ _ _ _ => edits_modify fun _ _ hg => hg.modifyBlock b hf

theorem edits_setTy (s : SocketId) {t t' : Ty} (ht : p.Types t t') :
    p.Edits (setTy s (some t)) (setTy s (some t')) Eq :=
  edits_updateSocket s fun _ _ hx => ⟨⟨hx.block, hx.role, hx.peer⟩, .some ht⟩

theorem edits_setWarning (b : BlockId) (warning : Option String) :
    p.Edits (setWarning b warning) (setWarning b warning) Eq :=
  edits_updateBlock b fun _ _ hx =>
    ⟨⟨hx.kind, hx.output, hx.inputs⟩, hx.ground, hx.params, rfl⟩

theorem edits_link (a b : SocketId) : p.Edits (link a b) (link a b) Eq := by
  have hpeer : ∀ (s : SocketId) (peer : Option SocketId),
      p.Edits (updateSocket s fun socket => { socket with peer })
        (updateSocket s fun socket => { socket with peer }) Eq := fun s peer =>
    edits_updateSocket s fun _ _ hx => ⟨⟨hx.block, hx.role, rfl⟩, hx.ty⟩
  refine (edits_askSocket b).bind fun _ _ _ _ _ => ?_
  exact (hpeer a (some b)).bind fun _ _ _ _ _ => hpeer b (some a)

theorem edits_unlink (s : SocketId) : p.Edits (unlink s) (unlink s) Eq := by
  refine (edits_askSocket s).bind fun _ x x' _ hx => ?_
  refine (edits_modify fun g g' hg => hg.setPeer s none).bind fun _ _ _ _ _ => ?_
  rw [hx.peer]
  cases x.peer with
  | none => exact .pure rfl
  | some peer =>
      exact (edits_modify fun g g' hg => hg.setPeer peer none).bind fun _ _ _ _ _ => .pure rfl

theorem edits_dropSocket (s : SocketId) : p.Edits (dropSocket s) (dropSocket s) Eq := by
  refine (edits_unlink s).bind fun _ peer peer' _ hpeer => ?_
  exact (edits_modify fun g g' hg => hg.eraseSocket s).bind fun _ _ _ _ _ => .pure hpeer

theorem edits_removeBlock (b : BlockId) :
    p.Edits (GraphM.removeBlock b) (GraphM.removeBlock b) fun _ _ => True := by
  refine (edits_askBlock b).bind fun _ x x' _ hx => ?_
  rw [hx.output, hx.inputs]
  have hdrop : p.Edits ((x.output.toList ++ x.inputs).forM fun s => discard (dropSocket s))
      ((x.output.toList ++ x.inputs).forM fun s => discard (dropSocket s)) Eq :=
    .forM_eq fun _ s _ => (edits_dropSocket s).map fun _ _ _ _ _ => rfl
  refine hdrop.bind fun _ _ _ _ _ => ?_
  refine (edits_modify fun g g' hg => ?_).bind fun _ _ _ _ _ => .pure trivial
  exact ⟨hg.blocks.erase b, hg.sockets, hg.nextBlock, hg.nextSocket⟩

theorem edits_inputsBySlot (inputs : List SocketId) :
    p.Edits (inputsBySlot inputs) (inputsBySlot inputs) Eq := by
  refine .foldlM (A := Eq) (Q := fun _ => Eq) (List.forall₂_refl inputs) ?_ rfl
  rintro _ s _ bySlot _ _ rfl rfl
  refine (edits_askSocket s).bind fun _ x x' _ hx => ?_
  rw [hx.slot?]
  cases x.slot? <;> exact .pure rfl

theorem edits_reuseInputs (b : BlockId) (old : Std.ExtTreeMap String SocketId)
    {entries entries' : List (String × Ty)} (hentries : p.Entries entries entries') :
    p.Edits (reuseInputs b old entries) (reuseInputs b old entries') Eq := by
  induction hentries generalizing old with
  | nil => exact .pure rfl
  | @cons e e' _ _ he _ ih =>
      obtain ⟨slot, t⟩ := e
      obtain ⟨_, t'⟩ := e'
      obtain ⟨rfl, ht⟩ := he
      rw [reuseInputs, reuseInputs]
      cases old[slot]? with
      | some s =>
          refine (edits_setTy s ht).bind fun _ _ _ _ _ => ?_
          refine Parallel.bind (.pure (R := fun _ => Eq) rfl) fun _ s₁ s₁' _ hs => ?_
          refine (ih (old.erase slot)).bind fun _ out out' _ hout => ?_
          rw [hs, hout]
          exact .pure rfl
      | none =>
          refine (edits_act fun g g' hg => hg.addSocket b (.input slot) ht).bind
            fun _ s₁ s₁' _ hs => ?_
          refine (ih (old.erase slot)).bind fun _ out out' _ hout => ?_
          rw [hs, hout]
          exact .pure rfl

theorem edits_dropInputs (inputs : List SocketId) :
    p.Edits (dropInputs inputs) (dropInputs inputs) Eq := by
  induction inputs with
  | nil => exact .pure rfl
  | cons s rest ih =>
      rw [dropInputs]
      refine (edits_unlink s).bind fun _ peer peer' _ hpeer => ?_
      subst hpeer
      have hrest : ∀ detached : List BlockId, p.Edits
          (do modify (·.eraseSocket s); return detached ++ (← dropInputs rest))
          (do modify (·.eraseSocket s); return detached ++ (← dropInputs rest)) Eq := by
        intro detached
        refine (edits_modify fun g g' hg => hg.eraseSocket s).bind fun _ _ _ _ _ => ?_
        exact ih.bind fun _ _ _ _ h => .pure (by rw [h])
      cases peer with
      | none => exact hrest []
      | some peer =>
          refine (edits_askSocket peer).bind fun _ x x' _ hx => ?_
          rw [hx.block]
          exact hrest [x.block]

theorem edits_replaceOutput (b : BlockId) (old : Option SocketId) {ty ty' : Option Ty}
    (hty : Option.Rel p.Types ty ty') :
    p.Edits (replaceOutput b old ty) (replaceOutput b old ty') Eq := by
  cases hty with
  | none =>
      cases old with
      | none => exact .pure rfl
      | some s => exact (edits_dropSocket s).bind fun _ _ _ _ h => .pure (by rw [h])
  | some ht =>
      cases old with
      | none =>
          exact (edits_act fun g g' hg => hg.addSocket b .output ht).bind fun _ _ _ _ h =>
            .pure (by rw [h])
      | some s => exact (edits_setTy s ht).bind fun _ _ _ _ _ => .pure rfl

theorem edits_replaceSockets (b : BlockId) {layout layout' : Layout}
    (hlayout : p.Layouts layout layout') :
    p.Edits (replaceSockets b layout) (replaceSockets b layout') Eq := by
  refine (edits_askBlock b).bind fun _ x x' _ hx => ?_
  rw [hx.inputs, hx.output]
  refine (edits_inputsBySlot x.inputs).bind fun _ old _ _ h => ?_
  subst h
  refine (edits_reuseInputs b old hlayout.inputs).bind fun _ reused _ _ h => ?_
  subst h
  obtain ⟨inputs, leftOver⟩ := reused
  refine (edits_dropInputs leftOver.values).bind fun _ detached _ _ h => ?_
  subst h
  refine (edits_replaceOutput b x.output hlayout.output).bind fun _ out _ _ h => ?_
  subst h
  refine (edits_updateBlock b fun y y' hy => ?_).bind fun _ _ _ _ _ => .pure rfl
  exact ⟨⟨hy.kind, rfl, rfl⟩, hy.ground, hlayout.params, hy.warned⟩

theorem edits_setPlace (place : Place) {t t' : Ty} (ht : p.Types t t') :
    p.Edits (setPlace place t) (setPlace place t') Eq := by
  cases place with
  | socket s => exact edits_setTy s ht
  | param b name =>
      exact edits_updateBlock b fun x x' hx =>
        ⟨⟨hx.kind, hx.output, hx.inputs⟩, hx.ground, hx.params.insert name ht, hx.warned⟩

/-- Inferred types that are paired are kept at the same places. -/
theorem edits_annotate {types types' : Std.ExtTreeMap Tag Ty} (htypes : p.Tagged types types') :
    p.Edits (annotate types) (annotate types') Eq := by
  have hplaces : p.Edits (types.toList.mapM fun e => ask (·.places e.1 e.2))
      (types'.toList.mapM fun e => ask (·.places e.1 e.2)) (List.Forall₂ p.Placed) := by
    refine .mapM (Q := fun _ => p.Placed) (fun _ => id) htypes.toList ?_
    rintro _ ⟨tag, t⟩ ⟨_, t'⟩ _ ⟨rfl, ht⟩
    exact edits_ask fun g g' hg => hg.places tag ht
  refine hplaces.bind fun _ placed placed' _ hplaced => ?_
  have hplaced : p.Placed placed.flatten placed'.flatten := List.rel_flatten hplaced
  have hblocks : p.Edits (placed.flatten.mapM fun e => ask (·.placeBlock e.1))
      (placed'.flatten.mapM fun e => ask (·.placeBlock e.1)) (List.Forall₂ Eq) := by
    refine .mapM (Q := fun _ => Eq) (fun _ => id) hplaced ?_
    rintro _ ⟨place, t⟩ ⟨_, t'⟩ _ ⟨rfl, ht⟩
    exact edits_ask_eq fun g g' hg => by rw [hg.sameShape.placeBlock_eq]
  refine hblocks.bind fun _ blocks blocks' _ h => ?_
  rw [List.forall₂_eq_eq_eq] at h
  subst h
  refine (edits_ask_eq fun g g' hg => by rw [hg.sameShape.components_eq]).bind
    fun _ members _ _ h => ?_
  subst h
  refine Parallel.get.bind fun _ g g' _ hg => ?_
  have hall := List.rel_append hplaced (hg.followers hplaced members)
  refine (edits_ask fun g g' hg => hg.agreement hall).bind fun _ s s' _ hs => ?_
  refine (edits_modify fun g g' hg => hg.applyTo hs members).bind fun _ _ _ _ _ => ?_
  have hkeep : p.Edits ((placed.flatten ++ g.followers placed.flatten members).forM fun e =>
        setPlace e.1 (s.apply e.2))
      ((placed'.flatten ++ g'.followers placed'.flatten members).forM fun e =>
        setPlace e.1 (s'.apply e.2)) Eq := by
    refine .forM hall ?_
    rintro _ ⟨place, t⟩ ⟨_, t'⟩ _ ⟨rfl, ht⟩
    exact edits_setPlace place (hs.apply ht)
  exact hkeep.bind fun _ _ _ _ _ => .pure rfl

end

end Pairing

end Plugboard
