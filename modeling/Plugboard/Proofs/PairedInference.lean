import Plugboard.Proofs.FoundTypes
import Plugboard.Proofs.Pairing
import Plugboard.Proofs.RelatedMaps

/-!
# Inference does not depend on names

Two inferences of one term, in paired environments and from paired pools, both succeed with paired
types or both fail with the same error on the same node. The same holds of a block with its holes,
and of a group of functions its members fail on the same nodes.
-/

namespace Plugboard

open InferM

namespace TypeError

/-- What is wrong with a term, once the variables of types are renamed. -/
def rename (f : String → String) : TypeError → TypeError
  | .unbound name tag => .unbound name tag
  | .unification cause tag => .unification (cause.rename f) tag
  | .structural cause => .structural cause

@[simp]
theorem tag_rename (f : String → String) (e : TypeError) : (e.rename f).tag = e.tag := by
  cases e <;> rfl

end TypeError

namespace Pairing

variable {p q : Pairing} {env env' : Env}

/-- The pools are those of the pairing, and the same tags have been noted with paired types. -/
structure States (p : Pairing) (st st' : InferState) : Prop where
  left : st.pool = p.left
  right : st'.pool = p.right
  notes : List.Forall₂ (fun n n' => n.1 = n'.1 ∧ p.Types n.2 n'.2) st.notes st'.notes

theorem lasting_notes :
    Lasting fun (p : Pairing) (n n' : Tag × Ty) => n.1 = n'.1 ∧ p.Types n.2 n'.2 :=
  fun hle h => ⟨h.1, lasting_types hle h.2⟩

/-- The error on the right is the one on the left, renamed. -/
abbrev Errors (p : Pairing) (e e' : TypeError) : Prop := e' = e.rename p.rename

/-- The errors are blamed on the same part of the program. -/
abbrev Blames (_ : Pairing) (e e' : TypeError) : Prop := e.tag = e'.tag

theorem blames_of_errors {e e' : TypeError} (h : p.Errors e e') : q.Blames e e' := by
  rw [Blames, h, TypeError.tag_rename]

/-- What the inference of a term answers. -/
structure Answers (p : Pairing) (r r' : Subst × Ty) : Prop where
  subst : p.Substs r.1 r'.1
  type : p.Types r.2 r'.2

/-- The same tags, with paired types. -/
abbrev Tagged (p : Pairing) : Std.ExtTreeMap Tag Ty → Std.ExtTreeMap Tag Ty → Prop :=
  Related p.Types

theorem parallel_onPool {α α' : Type} {f : VarPool → α × VarPool} {f' : VarPool → α' × VarPool}
    {R : Pairing → α → α' → Prop}
    (h : ∃ q, p ≤ q ∧ q.left = (f p.left).2 ∧ q.right = (f' p.right).2 ∧
      R q (f p.left).1 (f' p.right).1) :
    Parallel States Errors p (onPool f) (onPool f') R := by
  refine .modifyGet fun st st' hst => ?_
  obtain ⟨q, hle, hleft, hright, hR⟩ := h
  rw [hst.left, hst.right]
  exact ⟨q, hle, hR, hleft.symm, hright.symm, lasting_notes.forall₂ hle hst.notes⟩

theorem parallel_freshVar : Parallel States Errors p freshVar freshVar Types :=
  parallel_onPool p.exists_fresh

theorem parallel_instantiate {scheme scheme' : Scheme} (h : p.Schemes scheme scheme') :
    Parallel States Errors p (instantiate scheme) (instantiate scheme') Types :=
  parallel_onPool h.instantiate

theorem parallel_note (tag : Option Tag) {t t' : Ty} (h : p.Types t t') :
    Parallel States Errors p (note tag t) (note tag t') fun _ => Eq := by
  cases tag with
  | none => exact .pure rfl
  | some tag =>
      exact .modify (fun st st' hst => ⟨hst.left, hst.right, .cons ⟨rfl, h⟩ hst.notes⟩) rfl

theorem parallel_unifyAt (tag : Option Tag) {t t' u u' : Ty} (ht : p.Types t t')
    (hu : p.Types u u') :
    Parallel States Errors p (unifyAt tag t u) (unifyAt tag t' u') Substs := by
  have hunify := ht.unify hu
  rw [unifyAt, unifyAt]
  generalize unify t u = outcome at hunify ⊢
  generalize unify t' u' = outcome' at hunify ⊢
  cases hunify with
  | ok h => exact .pure h
  | error h => exact .throw (congrArg (TypeError.unification · tag) h)

/-- Everything but the names is the same in two inferences of one term. -/
theorem parallel_infer {e : Term} (hlits : e.LitsGround) (henv : p.Envs env env') :
    Parallel States Errors p (e.infer env) (e.infer env') Answers := by
  induction e generalizing p env env' with
  | var name tag =>
      rw [Term.infer, Term.infer]
      have hlookup := henv name
      generalize env.lookup name = found at hlookup ⊢
      generalize env'.lookup name = found' at hlookup ⊢
      cases hlookup with
      | none => exact .throw rfl
      | some hscheme =>
          refine (parallel_instantiate hscheme).bind fun q t t' _ ht => ?_
          exact (parallel_note tag ht).bind fun r _ _ hr _ => .pure ⟨.empty, lasting_types hr ht⟩
  | lit t tag =>
      have ht : ∀ q : Pairing, q.Types t t := fun q => .of_ground hlits
      exact (parallel_note tag (ht p)).bind fun q _ _ _ _ => .pure ⟨.empty, ht q⟩
  | lam param body tag ih =>
      refine parallel_freshVar.bind fun q paramTy paramTy' hq hparam => ?_
      have hbody := ih hlits ((lasting_envs hq henv).insert param (.mono hparam))
      refine hbody.bind fun r out out' hr hout => ?_
      obtain ⟨s, t⟩ := out
      obtain ⟨s', t'⟩ := out'
      have ht := (hout.subst.apply (lasting_types hr hparam)).fn hout.type
      exact (parallel_note tag ht).bind fun _ _ _ hle _ =>
        .pure ⟨lasting_substs hle hout.subst, lasting_types hle ht⟩
  | app func arg tag ihf iha =>
      refine (ihf hlits.1 henv).bind fun q₁ out₁ out₁' h₁ hfunc => ?_
      obtain ⟨s₁, t₁⟩ := out₁
      obtain ⟨s₁', t₁'⟩ := out₁'
      have hrest := iha hlits.2 ((lasting_envs h₁ henv).apply hfunc.subst)
      refine hrest.bind fun q₂ out₂ out₂' h₂ harg => ?_
      obtain ⟨s₂, t₂⟩ := out₂
      obtain ⟨s₂', t₂'⟩ := out₂'
      refine parallel_freshVar.bind fun q₃ result result' h₃ hresult => ?_
      have hs₂ := lasting_substs h₃ harg.subst
      have hfuncTy := hs₂.apply (lasting_types (h₂.trans h₃) hfunc.type)
      have hunify := parallel_unifyAt tag hfuncTy ((lasting_types h₃ harg.type).fn hresult)
      refine hunify.bind fun q₄ s₃ s₃' h₄ hs₃ => ?_
      have ht := hs₃.apply (lasting_types h₄ hresult)
      have hs := hs₃.compose
        ((lasting_substs h₄ hs₂).compose (lasting_substs (h₂.trans (h₃.trans h₄)) hfunc.subst))
      exact (parallel_note tag ht).bind fun _ _ _ hle _ =>
        .pure ⟨lasting_substs hle hs, lasting_types hle ht⟩
  | letIn name bound body tag ihb ihe =>
      refine (ihb hlits.1 henv).bind fun q₁ out₁ out₁' h₁ hbound => ?_
      obtain ⟨s₁, t₁⟩ := out₁
      obtain ⟨s₁', t₁'⟩ := out₁'
      have houter := ((lasting_envs h₁ henv).erase name).apply hbound.subst
      have hbody := ihe hlits.2 (houter.insert name (.renamed (houter.generalize hbound.type)))
      refine hbody.bind fun q₂ out₂ out₂' h₂ hout => ?_
      obtain ⟨s₂, t₂⟩ := out₂
      obtain ⟨s₂', t₂'⟩ := out₂'
      have hs := hout.subst.compose (lasting_substs h₂ hbound.subst)
      exact (parallel_note tag hout.type).bind fun _ _ _ hle _ =>
        .pure ⟨lasting_substs hle hs, lasting_types hle hout.type⟩

/-- Bindings of the same names to paired schemes. -/
abbrev Bindings (p : Pairing) : List (String × Scheme) → List (String × Scheme) → Prop :=
  List.Forall₂ fun b b' => b.1 = b'.1 ∧ p.Schemes b.2 b'.2

theorem parallel_bindHoles (holes : List SocketId) :
    Parallel States Errors p (bindHoles holes) (bindHoles holes) Bindings := by
  refine .mapM (A := Eq) (fun hle h => ⟨h.1, lasting_schemes hle h.2⟩) (List.forall₂_refl holes) ?_
  rintro q s _ _ rfl
  exact parallel_freshVar.bind fun _ _ _ _ ht => .pure ⟨rfl, .mono ht⟩

theorem parallel_inferAs {l : Lowered} (hlits : l.term.LitsGround) (henv : p.Envs env env')
    (block : BlockId) {t t' : Ty} (ht : p.Types t t') {before before' : Subst}
    (hbefore : p.Substs before before') :
    Parallel States Errors p (l.inferAs env block t before) (l.inferAs env' block t' before')
      Substs := by
  refine (parallel_bindHoles l.holes).bind fun q holes holes' hq hholes => ?_
  have hbefore := lasting_substs hq hbefore
  have hinner := Envs.apply ((lasting_envs hq henv).insertMany hholes) hbefore
  refine (parallel_infer hlits hinner).bind fun r out out' hr hout => ?_
  obtain ⟨s, u⟩ := out
  obtain ⟨s', u'⟩ := out'
  have hbefore := lasting_substs hr hbefore
  have hexpected := hout.subst.apply (hbefore.apply (lasting_types (hq.trans hr) ht))
  refine (parallel_unifyAt (some (.block block)) hout.type hexpected).bind fun r' u u' hr' hu => ?_
  exact .pure (hu.compose
    ((lasting_substs hr' hout.subst).compose (lasting_substs hr' hbefore)))

theorem parallel_inferSection {l : Lowered} (hlits : l.term.LitsGround) (henv : p.Envs env env') :
    Parallel States Errors p (l.inferSection env) (l.inferSection env') Substs :=
  (parallel_infer (Lowered.litsGround_toSection hlits) henv).bind fun _ _ _ _ hout =>
    .pure hout.subst

/-- The types of tags, resolved against what has been found. -/
theorem Substs.tagged {s s' : Subst} {notes notes' : List (Tag × Ty)} (hs : p.Substs s s')
    (hnotes : List.Forall₂ (fun n n' => n.1 = n'.1 ∧ p.Types n.2 n'.2) notes notes') :
    p.Tagged (resolve s notes) (resolve s' notes') := by
  intro tag
  rw [getElem?_resolve, getElem?_resolve]
  induction hnotes with
  | nil => exact .none
  | @cons n n' rest rest' hn _ ih =>
      obtain ⟨tag₁, t⟩ := n
      obtain ⟨tag₁', t'⟩ := n'
      obtain ⟨rfl, ht⟩ := hn
      simp only [Subst.applyNotes, List.map_cons, List.lookup_cons] at ih ⊢
      cases tag == tag₁ with
      | true => exact .some (hs.apply ht)
      | false => exact ih

open FunctionGroup

theorem inStep_attempt {α α' : Type} {x : InferM α} {x' : InferM α'} {R : Pairing → α → α' → Prop}
    (h : Parallel States Errors p x x' R) :
    InStep States p (attempt x) (attempt x') fun q => Outcomes (R q) (Errors q) := by
  intro st st' hst
  rw [run_attempt, run_attempt]
  have hrun := h st st' hst
  rcases hx : x.run st with ⟨r, mid⟩
  rcases hx' : x'.run st' with ⟨r', mid'⟩
  rw [show StateT.run (ExceptT.run x) st = _ from hx,
    show StateT.run (ExceptT.run x') st' = _ from hx'] at hrun
  obtain ⟨q, hle, hr, hmid⟩ := hrun
  cases hr with
  | ok ha => exact ⟨q, hle, .ok ha, hmid⟩
  | error he =>
      refine ⟨q, hle, .error he, hmid.left, hmid.right, ?_⟩
      dsimp only at hmid ⊢
      rw [← hst.notes.length_eq, ← hmid.notes.length_eq]
      exact List.forall₂_drop _ hmid.notes

theorem inStep_freshVar :
    InStep States p FunctionGroup.freshVar FunctionGroup.freshVar Types := by
  rintro st st' hst
  obtain ⟨q, hle, hleft, hright, ht⟩ := p.exists_fresh
  rw [← hst.left] at hleft ht
  rw [← hst.right] at hright ht
  exact ⟨q, hle, ht, hleft.symm, hright.symm, lasting_notes.forall₂ hle hst.notes⟩

theorem inStep_freshVars {α α' : Type} {A : α → α' → Prop} {xs : List α} {xs' : List α'}
    (hxs : List.Forall₂ A xs xs') :
    InStep States p (xs.mapM fun _ => FunctionGroup.freshVar)
      (xs'.mapM fun _ => FunctionGroup.freshVar) fun q => List.Forall₂ q.Types :=
  .mapM lasting_types hxs fun _ _ _ _ _ => inStep_freshVar

/-- Every error is found on both sides, and blamed on the same part of the program. -/
abbrev Failures (p : Pairing) : List (Option TypeError) → List (Option TypeError) → Prop :=
  List.Forall₂ (Option.Rel p.Blames)

theorem parallel_inferBody {m : Member} (hlits : ∀ l, m.lowered = .ok l → l.term.LitsGround)
    (henv : p.Envs env env') {t t' : Ty} (ht : p.Types t t') {before before' : Subst}
    (hbefore : p.Substs before before') :
    Parallel States Errors p (inferBody env m t before) (inferBody env' m t' before') Substs := by
  rw [inferBody, inferBody]
  cases hlowered : m.lowered with
  | error e => exact .throw rfl
  | ok l => exact parallel_inferAs (hlits l hlowered) henv m.block ht hbefore

theorem inStep_inferBodies {members : List Member}
    (hlits : ∀ m ∈ members, ∀ l, m.lowered = .ok l → l.term.LitsGround)
    (henv : p.Envs env env') {selves selves' : List Ty}
    (hselves : List.Forall₂ p.Types selves selves') {s s' : Subst} (hs : p.Substs s s') :
    InStep States p (inferBodies env (members.zip selves) s)
      (inferBodies env' (members.zip selves') s')
      fun q r r' => q.Substs r.1 r'.1 ∧ q.Failures r.2 r'.2 := by
  induction members generalizing p s s' selves selves' with
  | nil => exact .pure ⟨hs, .nil⟩
  | cons m members ih =>
      rw [List.forall_mem_cons] at hlits
      cases hselves with
      | nil => exact .pure ⟨hs, .nil⟩
      | @cons self self' selves selves' hself hselves =>
          refine (inStep_attempt (parallel_inferBody hlits.1 henv hself hs)).bind
            fun q r r' hq hr => ?_
          have henv := lasting_envs hq henv
          have hselves := lasting_types.forall₂ hq hselves
          cases hr with
          | ok hs =>
              refine (ih hlits.2 henv hselves hs).bind fun _ out out' _ hout => ?_
              exact .pure ⟨hout.1, .cons .none hout.2⟩
          | error he =>
              refine (ih hlits.2 henv hselves (lasting_substs hq hs)).bind
                fun _ out out' _ hout => ?_
              exact .pure ⟨hout.1, .cons (.some (blames_of_errors he)) hout.2⟩

theorem envs_insertMany_mono (henv : p.Envs env env') (names : List String)
    {selves selves' : List Ty} (hselves : List.Forall₂ p.Types selves selves') :
    p.Envs (env.insertMany (names.zip (selves.map .mono)))
      (env'.insertMany (names.zip (selves'.map .mono))) := by
  have hmonos : List.Forall₂ p.Schemes (selves.map .mono) (selves'.map .mono) := by
    rw [List.forall₂_map_left_iff, List.forall₂_map_right_iff]
    exact hselves.imp fun _ _ => .mono
  exact henv.insertMany (forall₂_zip (List.forall₂_refl names) hmonos)

theorem inStep_bindingOf (henv : p.Envs env env') {s s' : Subst} (hs : p.Substs s s') {t t' : Ty}
    (ht : p.Types t t') {E : TypeError → TypeError → Prop} {error error' : Option TypeError}
    (herror : Option.Rel E error error') :
    InStep States p (bindingOf env s t error) (bindingOf env' s' t' error') Renames := by
  cases herror with
  | none => exact .pure ((henv.apply hs).generalize (hs.apply ht))
  | some _ => exact inStep_freshVar.bind fun _ _ _ _ ht => .pure (.closed ht)

theorem inStep_bindings (henv : p.Envs env env') {s s' : Subst} (hs : p.Substs s s')
    {selves selves' : List Ty} (hselves : List.Forall₂ p.Types selves selves')
    {E : TypeError → TypeError → Prop} {errors errors' : List (Option TypeError)}
    (herrors : List.Forall₂ (Option.Rel E) errors errors') :
    InStep States p ((selves.zip errors).mapM fun x => bindingOf env s x.1 x.2)
      ((selves'.zip errors').mapM fun x => bindingOf env' s' x.1 x.2)
      fun q => List.Forall₂ q.Renames :=
  .mapM lasting_renames (forall₂_zip hselves herrors) fun _ _ _ hq hx =>
    inStep_bindingOf (lasting_envs hq henv) (lasting_substs hq hs) (lasting_types hq hx.1) hx.2

/-- What a group is found to be, on both sides. -/
structure Groups (p : Pairing) (g g' : GroupTyping) : Prop where
  schemes : p.Bindings g.schemes g'.schemes
  errors : List.Forall₂ (fun e e' => e.1 = e'.1 ∧ p.Blames e.2 e'.2) g.errors g'.errors
  types : p.Tagged g.types g'.types

theorem inStep_infer {members : List Member}
    (hlits : ∀ m ∈ members, ∀ l, m.lowered = .ok l → l.term.LitsGround)
    (henv : p.Envs env env') :
    InStep States p (FunctionGroup.infer env members) (FunctionGroup.infer env' members)
      Groups := by
  refine (inStep_freshVars (A := Eq) (List.forall₂_refl members)).bind
    fun q selves selves' hq hselves => ?_
  have henv := lasting_envs hq henv
  have hinner := envs_insertMany_mono henv (members.map (·.name)) hselves
  refine (inStep_inferBodies hlits hinner hselves .empty).bind fun r out out' hr hout => ?_
  obtain ⟨s, errors⟩ := out
  obtain ⟨s', errors'⟩ := out'
  refine InStep.get.bind fun u st st' hu hst => ?_
  have hs := lasting_substs hu hout.1
  have hbindings := inStep_bindings (lasting_envs (hr.trans hu) henv) hs
    (lasting_types.forall₂ (hr.trans hu) hselves) hout.2
  refine hbindings.bind fun v schemes schemes' hv hschemes => .pure ⟨?_, ?_, ?_⟩
  · exact forall₂_zip (List.forall₂_refl (members.map (·.name)))
      (hschemes.imp fun _ _ => .renamed)
  · have herrors := forall₂_zip (R := Eq) (List.forall₂_refl members) hout.2
    refine List.rel_filterMap ?_ herrors
    rintro ⟨m, error⟩ ⟨_, error'⟩ ⟨rfl, herror⟩
    cases herror with
    | none => exact .none
    | some he => exact .some ⟨rfl, he⟩
  · exact (lasting_substs hv hs).tagged (lasting_notes.forall₂ hv hst.notes)

end Pairing

end Plugboard
