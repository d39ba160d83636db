import Plugboard.Proofs.FailedMembers
import Plugboard.Proofs.FailedRoots
import Plugboard.Proofs.LoweredTrees

/-!
# What errors are blamed on

An error that is met in a term is blamed on a node of that term. So inference of a tree sets a
warning on no block but those that are plugged together with the tree, and it keeps types on no
others.
-/

namespace Plugboard

open InferM Shape

namespace InferM

/-- Whatever goes wrong is blamed on a marked tag, if on any. -/
def Blames {α : Type} (marked : Tag → Prop) (x : InferM α) : Prop :=
  ∀ ⦃st st' : InferState⦄ ⦃e : TypeError⦄, x.run st = (.error e, st') → Term.Marked marked e.tag

namespace Blames

variable {α β : Type} {marked : Tag → Prop} {x : InferM α} {f : α → InferM β}

theorem pure (a : α) : Blames marked (Pure.pure a) := fun _ _ _ h => nomatch h

theorem throw {e : TypeError} (h : Term.Marked marked e.tag) :
    Blames marked (MonadExcept.throw e : InferM α) := fun _ _ _ hrun => by
  cases hrun
  exact h

theorem bind (hx : Blames marked x) (hf : ∀ a, Blames marked (f a)) : Blames marked (x >>= f) := by
  intro st st' e h
  change (ExceptT.bindCont f (x.run st).1 : StateM InferState _) (x.run st).2 = _ at h
  rcases hrun : x.run st with ⟨e' | a, mid⟩
  · rw [hrun] at h
    cases h
    exact hx hrun
  · rw [hrun] at h
    exact hf a h

theorem mapM {xs : List α} {f : α → InferM β} (h : ∀ a ∈ xs, Blames marked (f a)) :
    Blames marked (xs.mapM f) := by
  induction xs with
  | nil => exact pure []
  | cons a xs ih =>
      rw [List.forall_mem_cons] at h
      rw [List.mapM_cons]
      exact (h.1).bind fun _ => (ih h.2).bind fun _ => pure _

theorem onPool (f : VarPool → α × VarPool) : Blames marked (InferM.onPool f) :=
  fun _ _ _ h => nomatch h

theorem note (tag : Option Tag) (t : Ty) : Blames marked (InferM.note tag t) := by
  cases tag with
  | none => exact pure _
  | some tag => exact fun _ _ _ h => nomatch h

theorem unifyAt {tag : Option Tag} (htag : Term.Marked marked tag) (a b : Ty) :
    Blames marked (InferM.unifyAt tag a b) := by
  rw [InferM.unifyAt]
  cases unify a b with
  | ok s => exact pure s
  | error cause => exact throw htag

theorem attempt (hx : Blames marked x) {st st' : InferState} {e : TypeError}
    (h : (InferM.attempt x).run st = (.error e, st')) : Term.Marked marked e.tag := by
  rw [FunctionGroup.run_attempt] at h
  rcases hrun : x.run st with ⟨e' | a, mid⟩ <;> rw [hrun] at h <;> cases h
  exact hx hrun

end Blames

end InferM

variable {marked : Tag → Prop} {env : Env}

/-- An error in a term is blamed on a node of it. -/
theorem Term.blames_infer {e : Term} (he : e.TagsIn marked) : Blames marked (e.infer env) := by
  induction e generalizing env with
  | var name tag =>
      rw [infer]
      cases env.lookup name with
      | none => exact .throw he
      | some scheme => exact .bind (.onPool _) fun _ => .bind (.note _ _) fun _ => .pure _
  | lit t tag => exact .bind (.note _ _) fun _ => .pure _
  | lam param body tag ih =>
      rw [infer]
      exact .bind (.onPool _) fun _ => .bind (ih he.2) fun _ => .bind (.note _ _) fun _ => .pure _
  | app func arg tag ihf iha =>
      rw [infer]
      exact .bind (ihf he.2.1) fun _ => .bind (iha he.2.2) fun _ => .bind (.onPool _) fun _ =>
        .bind (.unifyAt he.1 _ _) fun _ => .bind (.note _ _) fun _ => .pure _
  | letIn name bound body tag ihb ihe =>
      rw [infer]
      exact .bind (ihb he.2.1) fun _ => .bind (ihe he.2.2) fun _ =>
        .bind (.note _ _) fun _ => .pure _

namespace Lowered

variable {l : Lowered} (hl : l.term.TagsIn marked)

include hl

theorem blames_inferAs {block : BlockId} (hblock : marked (.block block)) (expected : Ty)
    (before : Subst) : Blames marked (l.inferAs env block expected before) :=
  .bind (.mapM fun _ _ => .bind (.onPool _) fun _ => .pure _) fun _ =>
    .bind (Term.blames_infer hl) fun _ =>
      .bind (.unifyAt (fun _ htag => Option.mem_some.1 htag ▸ hblock) _ _) fun _ => .pure _

theorem blames_inferSection : Blames marked (l.inferSection env) := by
  refine .bind (Term.blames_infer ?_) fun _ => .pure _
  exact (Term.structural_tagsIn marked (fun _ => True) fun _ => True).lamAll (fun _ _ => trivial) hl

end Lowered

namespace FunctionGroup

/-- The members are lowered to terms with marked tags. -/
def Marks (marked : Tag → Prop) (members : List Member) : Prop :=
  ∀ m ∈ members, marked (.block m.block) ∧ ∃ l, m.lowered = .ok l ∧ l.term.TagsIn marked

theorem marked_of_inferBodies {bodies : List (Member × Ty)}
    (hbodies : ∀ body ∈ bodies, marked (.block body.1.block) ∧
      ∃ l, body.1.lowered = .ok l ∧ l.term.TagsIn marked) {s : Subst} {st : InferState} :
    ∀ error ∈ ((inferBodies env bodies s).run st).1.2, ∀ e ∈ error, Term.Marked marked e.tag := by
  induction bodies generalizing s st with
  | nil => exact fun error herror => (List.not_mem_nil herror).elim
  | cons body bodies ih =>
      obtain ⟨m, self⟩ := body
      rw [List.forall_mem_cons] at hbodies
      obtain ⟨⟨hblock, l, hl, htags⟩, hrest⟩ := hbodies
      have hbody : Blames marked (inferBody env m self s) := by
        rw [inferBody, hl]
        exact l.blames_inferAs htags hblock self s
      rcases hrun : (attempt (inferBody env m self s)).run st with ⟨e | s', st'⟩
      · rw [run_inferBodies_error hrun]
        refine List.forall_mem_cons.2 ⟨fun e' he' => ?_, ih hrest⟩
        obtain rfl := Option.mem_some.1 he'
        exact hbody.attempt hrun
      · rw [run_inferBodies_ok hrun]
        exact List.forall_mem_cons.2 ⟨fun e he => (Option.not_mem_none e he).elim, ih hrest⟩

/-- The errors in a group are those of its members. -/
theorem marked_of_mem_errors {members : List Member} (h : Marks marked members) {st : InferState}
    {error : BlockId × TypeError} (herror : error ∈ ((infer env members).run st).1.errors) :
    marked (.block error.1) ∧ Term.Marked marked error.2.tag := by
  rw [run_infer_eq] at herror
  obtain ⟨⟨m, found⟩, hmem, heq⟩ := List.mem_filterMap.1 herror
  obtain ⟨e, he, rfl⟩ := Option.map_eq_some_iff.1 heq
  obtain ⟨hm, hfound⟩ := List.of_mem_zip hmem
  refine ⟨(h m hm).1, marked_of_inferBodies (fun body hbody => h body.1 ?_) found hfound e he⟩
  exact (List.of_mem_zip hbody).1

end FunctionGroup

namespace Shape

/-- What is around blocks of whole components is on such blocks. -/
theorem Closed.tagged_of_around {sh : Shape} {K : Set BlockId} (hK : sh.Closed K)
    {origin : BlockId → Prop} (horigin : ∀ b, origin b → b ∈ K) {tag : Tag}
    (h : sh.Around origin tag) : ∃ b ∈ K, sh.Tagged b tag := by
  obtain ⟨root, hroot, b, hconn, hb⟩ := h
  exact ⟨b, (hK hconn).1 (horigin root hroot), hb⟩

end Shape

namespace Workspace

variable {sh : Shape} {K K' : Set BlockId} {old ws ws' : Workspace} {root : BlockId}

/-- The block that is blamed is the one that the tag of the error is on. -/
theorem blamed_mem (hroot : root ∈ K) {e : TypeError}
    (he : Term.Marked (fun tag => ∃ b ∈ K, ws.main.shape.Tagged b tag) e.tag) :
    ws.blamed root e ∈ K := by
  rw [blamed]
  split
  · rename_i b htag
    obtain ⟨c, hc, rfl, -⟩ := he _ htag
    split
    · exact hc
    · exact hroot
  · rename_i s htag
    obtain ⟨c, hc, role, hs⟩ := he _ htag
    obtain ⟨socket, hsocket, heq⟩ := Graph.shape_site_eq_some.1 hs
    obtain rfl := (Prod.mk.inj heq).1
    rw [hsocket]
    exact hc
  · exact hroot

/-- The blocks that are not in `K` have the types and the warnings that they had. -/
structure Spares (sh : Shape) (K : Set BlockId) (old ws : Workspace) : Prop where
  shape : ws.main.shape = sh
  keptAt : ∀ {b place}, b ∉ K → sh.Hosts b place → ws.main.keptAt place = old.main.keptAt place
  warningAt : ∀ {b}, b ∉ K → ws.main.warningAt b = old.main.warningAt b

namespace Spares

theorem refl (h : ws.main.shape = sh) : Spares sh K ws ws := ⟨h, fun _ _ => rfl, fun _ => rfl⟩

theorem trans (h : Spares sh K old ws) (h' : Spares sh K ws ws') : Spares sh K old ws' where
  shape := h'.shape
  keptAt hb hplace := (h'.keptAt hb hplace).trans (h.keptAt hb hplace)
  warningAt hb := (h'.warningAt hb).trans (h.warningAt hb)

theorem mono (h : Spares sh K old ws) (hsub : K ⊆ K') : Spares sh K' old ws where
  shape := h.shape
  keptAt hb := h.keptAt fun hmem => hb (hsub hmem)
  warningAt hb := h.warningAt fun hmem => hb (hsub hmem)

variable (h : Spares sh K old ws)

include h

theorem setPool (pool : VarPool) : Spares sh K old { ws with pool } :=
  ⟨h.shape, h.keptAt, h.warningAt⟩

theorem warn (hroot : root ∈ K) {e : TypeError}
    (he : Term.Marked (fun tag => ∃ b ∈ K, sh.Tagged b tag) e.tag) :
    Spares sh K old (ws.warn root e) where
  shape := h.shape ▸ (Graph.shape_modifyBlock fun _ => ⟨rfl, rfl, rfl⟩ :
    (ws.main.modifyBlock _ fun block => { block with warning := some _ }).shape = ws.main.shape)
  keptAt hb hplace := (keptAt_warn ws root e _).trans (h.keptAt hb hplace)
  warningAt {b} hb := by
    have hne : ws.blamed root e ≠ b := fun heq => hb (heq ▸ blamed_mem hroot (h.shape ▸ he))
    refine Eq.trans ?_ (h.warningAt hb)
    change ((ws.main.modifyBlock (ws.blamed root e) _).blocks[b]?).bind _ = _
    rw [Graph.getElem?_modifyBlock, if_neg hne]
    rfl

end Spares

end Workspace

namespace Lowered

theorem blames_inference {l : Lowered} (hl : l.term.TagsIn marked) {root : BlockId}
    (hroot : marked (.block root)) (expected : Option Ty) :
    Blames marked (l.inference env root expected) := by
  cases expected with
  | some t => exact l.blames_inferAs hl hroot t .empty
  | none => exact l.blames_inferSection hl

end Lowered

namespace WorkspaceM

open Workspace

variable {sh : Shape} {K : Set BlockId} {old ws : Workspace} {root : BlockId}

variable (hsh : sh.Regular ∅) (hK : sh.Closed K)

include hsh hK

theorem ends_annotate_spares {types : Std.ExtTreeMap Tag Ty}
    (htags : ∀ {tag : Tag} {t : Ty}, types[tag]? = some t → ∃ b ∈ K, sh.Tagged b tag)
    (hws : Spares sh K old ws) :
    Ends (annotate types) ws (fun _ => Spares sh K old) fun _ => False := by
  obtain rfl := hws.shape
  have htagsOn : ws.main.TagsOn K types := fun tag t ht => htags ht
  refine (@ends_annotate ws ∅ hsh types fun ht => (htagsOn ht).imp fun _ => And.right).imp
    (fun _ ws' h => ?_) fun _ => id
  obtain ⟨members, rfl, hmem⟩ := h
  have hwithin : ∀ c ∈ members, c ∈ K := by
    intro c hc
    obtain ⟨p, hp, b, hb, hbc⟩ := (hmem c).1 hc
    obtain ⟨d, hd, hhosts⟩ := Graph.hosts_ownPlaces hsh htagsOn hp
    exact (hK hbc).1 (hb.unique hhosts ▸ hd)
  exact ⟨Graph.shape_annotated _ _, fun hb hplace =>
    (Graph.keptAt_annotated_of_not_mem hsh hK htagsOn hwithin hb hplace).trans
      (hws.keptAt hb hplace),
    fun hb => (Graph.warningAt_annotated types members).trans (hws.warningAt hb)⟩

/-- The tags in the term of a tree are on blocks that are plugged together with it. -/
theorem tagsIn_lower_of_mem (hshape : ws.main.shape = sh) (hlive : sh.Live root) (hroot : root ∈ K)
    {l : Lowered} (hlower : ws.main.lower root = .ok l) :
    l.term.TagsIn fun tag => ∃ b ∈ K, sh.Tagged b tag := by
  subst hshape
  exact (Graph.around_of_lower hsh.toWired hroot hlive hlower).imp fun _ =>
    hK.tagged_of_around fun _ => id

/-- A tree that stands for a term leaves all blocks alone that it is not plugged together with. -/
theorem completes_inferTree_spares {p : Ports} (hp : sh.ports root = some p)
    (hruns : p.kind.operands?.isSome) (hroot : root ∈ K) (expected : Option Ty) :
    Completes (Spares sh K old) (inferTree env root expected) := by
  intro ws hws
  obtain rfl := hws.shape
  obtain ⟨block, hblock, rfl⟩ := Graph.shape_ports_eq_some.1 hp
  obtain ⟨l, hlower, -⟩ := Graph.exists_lower_of_isSome hsh hblock hruns
  have hl := tagsIn_lower_of_mem hsh hK rfl ⟨_, hp⟩ hroot hlower
  have htag : ∃ b ∈ K, ws.main.shape.Tagged b (.block root) := ⟨root, hroot, rfl, _, hp⟩
  rw [ends_inferTree_iff hlower]
  have htypes := @around_of_typesOf ws hsh.toWired root ⟨_, hp⟩ l hlower
    (l.inference env root expected) fun hl =>
      l.preserves_inference (InferState.stable_tagsIn _) hl root expected
  rcases hrun : (l.inference env root expected).run (ofPool ws.pool) with ⟨e | s, st⟩ <;>
    rw [hrun] at htypes
  · exact (hws.setPool _).warn hroot (l.blames_inference hl htag expected hrun)
  · refine ends_annotate_spares hsh hK (fun ht => hK.tagged_of_around (fun c hc => ?_) (htypes ht))
      (hws.setPool _)
    rwa [show c = root from hc]

theorem completes_inferSlot_spares {input : SocketId} {b : BlockId} {slot : String}
    (hinput : sh.site input = some (b, .input slot)) (hb : b ∈ K) :
    Completes (Spares sh K old) (inferSlot env input) := by
  intro ws hws
  obtain rfl := hws.shape
  have hty : ws.main.socketTy input = .ok (ws.main.tyAt input) :=
    Graph.placeTy_eq (show ws.main.shape.Hosts b (.socket input) from ⟨_, hinput⟩)
  rw [inferSlot, ends_bind, ends_ask, Graph.pluggedBlock_eq hsh.toWired hinput]
  cases hguest : ws.main.shape.guest input with
  | none => exact hws
  | some child =>
      have hplug := hsh.plugged_of_guest hinput hguest
      obtain ⟨p, hp⟩ := hsh.toWired.live_of_guest hguest
      have hruns := BlockKind.operands?_isSome_of_hasOutput (hsh.hasOutput_of_plugged hplug hp)
      have hchild : child ∈ K := (hK (.single (.inr hplug))).2 hb
      dsimp only
      rw [ends_bind, ends_ask, hty]
      dsimp only
      rw [ends_bind]
      exact (completes_inferTree_spares hsh hK hp hruns hchild _ ws hws).imp (fun _ _ => id)
        fun _ => id

theorem completes_inferRoot_spares (hlive : sh.Live root) (hroot : root ∈ K) :
    Completes (Spares sh K old) (inferRoot env root) := by
  intro ws hws
  obtain ⟨p, hp⟩ := id hlive
  obtain ⟨block, hblock, rfl⟩ := Graph.shape_ports_eq_some.1 (hws.shape.symm ▸ hp)
  rw [inferRoot, ends_bind, ends_ask, Graph.block_eq_ok.2 hblock]
  dsimp only
  split
  · exact hws
  · exact hws
  · refine completes_total (fun input hinput => ?_) ws hws
    obtain ⟨slot, hsite⟩ := (hsh.lists hp).input hinput
    exact completes_inferSlot_spares hsh hK hsite hroot
  · rw [ends_bind]
    have hruns : (Ports.mk block.kind block.output block.inputs).kind.operands?.isSome := by
      dsimp only
      cases hkind : block.kind <;> first | rfl | simp_all
    exact (completes_inferTree_spares hsh hK hp hruns hroot none ws hws).imp (fun _ _ => id)
      fun _ => id

/-- A group leaves all blocks alone that its functions are not plugged together with. -/
theorem completes_inferGroup_spares {group : List BlockId}
    (hgroup : ∀ f ∈ group, ∀ name, sh.Defines f name → f ∈ K) :
    Completes (Spares sh K old) (inferGroup env group) := by
  intro ws hws
  obtain rfl := hws.shape
  have hmem : ∀ m ∈ group.filterMap ws.member?, m.block ∈ K := fun m hm =>
    let ⟨hf, _, hdefines⟩ := of_mem_members hm
    hgroup _ hf _ hdefines
  have hmarks : FunctionGroup.Marks (fun tag => ∃ b ∈ K, ws.main.shape.Tagged b tag)
      (group.filterMap ws.member?) := fun m hm => by
    obtain ⟨-, hlowered, p, params, hp, hkind⟩ := of_mem_members hm
    obtain ⟨block, hblock, rfl⟩ := Graph.shape_ports_eq_some.1 hp
    replace hkind : block.kind = .function m.name params := hkind
    obtain ⟨l, hlower, -⟩ := Graph.exists_lower_of_isSome hsh hblock (hkind ▸ rfl)
    exact ⟨⟨m.block, hmem m hm, rfl, _, hp⟩, l, hlowered.trans hlower,
      tagsIn_lower_of_mem hsh hK rfl ⟨_, hp⟩ (hmem m hm) hlower⟩
  have htypes := @around_of_infer_group ws hsh.toWired env group
  rw [inferGroup, ends_bind, ends_get, ends_bind, ends_runInference, ends_bind]
  refine (ends_annotate_spares hsh hK (fun ht => hK.tagged_of_around (fun b hb => ?_) (htypes ht))
    (hws.setPool _)).imp (fun _ ws₁ hws₁ => ?_) fun _ => id
  · obtain ⟨m, hm⟩ := Option.isSome_iff_exists.1 hb.2
    obtain ⟨-, rfl, -⟩ := member?_eq_some.1 hm
    exact hmem m (List.mem_filterMap.2 ⟨_, hb.1, hm⟩)
  · rw [ends_bind]
    refine (Completes.forM (fun error herror ws hws => ?_) ws₁ hws₁).imp (fun _ _ => id)
      fun _ => id
    obtain ⟨⟨b, hb, heq, -⟩, htag⟩ := FunctionGroup.marked_of_mem_errors hmarks herror
    exact hws.warn (heq ▸ hb) htag

end WorkspaceM

end Plugboard
