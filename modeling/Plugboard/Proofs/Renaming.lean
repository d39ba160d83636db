import Mathlib
import Plugboard.Proofs.Typing

/-!
# Renaming bound variables

Terms that differ in the names of their bound variables only are run side by side, in
environments that agree wherever the names correspond. The names do not matter to a run, with
one exception: a local definition is generalized against an environment that lacks its name,
and which variables are thereby left out depends on the binding that the name hides. Where no
definition profits from that, both runs have the same outcome.

The environments need not have the same schemes, since a name may hide a binding on one side
only. Both runs still generalize alike: a variable in use that is free on one side only is out
of the scope of the run on the other side, so that it gets into no type.
-/

namespace Plugboard

namespace InferM

variable {α β : Type}

theorem run_bind_congr {x y : InferM α} {f g : α → InferM β} {st : InferState}
    (hxy : x.run st = y.run st)
    (hfg : ∀ a st', x.run st = (.ok a, st') → (f a).run st' = (g a).run st') :
    (x >>= f).run st = (y >>= g).run st := by
  rw [run_bind, run_bind, ← hxy]
  cases hrun : x.run st with
  | mk outcome st' =>
      cases outcome with
      | error e => rfl
      | ok a => exact hfg a st' hrun

end InferM

namespace Term

/-- The left name stands for the same binder as the right one, or both are free and equal. A
scope pairs the names of the binders, the innermost first. -/
inductive Corresponds : List (String × String) → String → String → Prop
  | free (name : String) : Corresponds [] name name
  | here {scope : List (String × String)} (name name' : String) :
      Corresponds ((name, name') :: scope) name name'
  | there {scope : List (String × String)} {bound bound' name name' : String}
      (hne : bound ≠ name) (hne' : bound' ≠ name') (h : Corresponds scope name name') :
      Corresponds ((bound, bound') :: scope) name name'

/-- Equal up to the names of bound variables. -/
inductive AlphaEq : List (String × String) → Term → Term → Prop
  | var {scope : List (String × String)} {name name' : String} (tag : Option Tag)
      (h : Corresponds scope name name') : AlphaEq scope (.var name tag) (.var name' tag)
  | lit {scope : List (String × String)} (t : Ty) (tag : Option Tag) :
      AlphaEq scope (.lit t tag) (.lit t tag)
  | app {scope : List (String × String)} {func func' arg arg' : Term} (tag : Option Tag)
      (hfunc : AlphaEq scope func func') (harg : AlphaEq scope arg arg') :
      AlphaEq scope (.app func arg tag) (.app func' arg' tag)
  | lam {scope : List (String × String)} {param param' : String} {body body' : Term}
      (tag : Option Tag) (hbody : AlphaEq ((param, param') :: scope) body body') :
      AlphaEq scope (.lam param body tag) (.lam param' body' tag)
  | letIn {scope : List (String × String)} {name name' : String}
      {bound bound' body body' : Term} (tag : Option Tag) (hbound : AlphaEq scope bound bound')
      (hbody : AlphaEq ((name, name') :: scope) body body') :
      AlphaEq scope (.letIn name bound body tag) (.letIn name' bound' body' tag)

theorem AlphaEq.litsGround {scope : List (String × String)} {e e' : Term}
    (h : AlphaEq scope e e') (hlits : e.LitsGround) : e'.LitsGround := by
  induction h with
  | var => trivial
  | lit => exact hlits
  | app _ _ _ ihf iha => exact ⟨ihf hlits.1, iha hlits.2⟩
  | lam _ _ ih => exact ih hlits
  | letIn _ _ _ ihb ihe => exact ⟨ihb hlits.1, ihe hlits.2⟩

/-- In the run of a term, leaving out the binding that a local definition hides makes no
difference to what is generalized. -/
def SparesHidden (env : Env) (pool : VarPool) : Term → Prop
  | .var _ _ => True
  | .lit _ _ => True
  | .app func arg _ =>
      func.SparesHidden env pool ∧ ∀ s₁ t₁ pool₁, func.Infers env pool s₁ t₁ pool₁ →
        arg.SparesHidden (env.apply s₁) pool₁
  | .lam param body _ =>
      body.SparesHidden (env.insert param (.mono (.var pool.allocate.1))) pool.allocate.2
  | .letIn name bound body _ =>
      bound.SparesHidden env pool ∧ ∀ s₁ t₁ pool₁, bound.Infers env pool s₁ t₁ pool₁ →
        ((env.erase name).apply s₁).generalize t₁ = (env.apply s₁).generalize t₁ ∧
        body.SparesHidden (env.define name s₁ t₁) pool₁

theorem NewLets.sparesHidden {scope : String → Prop} {e : Term} (h : e.NewLets scope) {env : Env}
    (hscope : env.NamesIn scope) (pool : VarPool) : e.SparesHidden env pool := by
  induction e generalizing scope env pool with
  | var => trivial
  | lit => trivial
  | app func arg tag ihf iha =>
      exact ⟨ihf h.1 hscope pool, fun s₁ _ pool₁ _ => iha h.2 (hscope.apply s₁) pool₁⟩
  | lam param body tag ih => exact ih h (hscope.insert param _) _
  | letIn name bound body tag ihb ihe =>
      obtain ⟨hnew, hbound, hbody⟩ := h
      refine ⟨ihb hbound hscope pool, fun s₁ t₁ pool₁ _ => ?_⟩
      rw [Env.define, hscope.erase_eq hnew]
      exact ⟨rfl, ihe hbody ((hscope.apply s₁).insert name _) pool₁⟩

end Term

namespace Env

/-- The environments give the same scheme to corresponding names, and where they give none the
names are the same. -/
structure Agree (scope : List (String × String)) (env env' : Env) : Prop where
  lookup : ∀ name name', Term.Corresponds scope name name' → env.lookup name = env'.lookup name'
  unbound : ∀ name name', Term.Corresponds scope name name' → env.lookup name = none →
    name = name'

namespace Agree

variable {scope : List (String × String)} {env env' : Env}

theorem refl (env : Env) : Agree [] env env where
  lookup name name' h := by
    cases h
    rfl
  unbound name name' h _ := by
    cases h
    rfl

theorem insert (h : Agree scope env env') (bound bound' : String) (scheme : Scheme) :
    Agree ((bound, bound') :: scope) (env.insert bound scheme) (env'.insert bound' scheme) where
  lookup name name' hname := by
    rw [lookup_insert, lookup_insert]
    cases hname with
    | here => rw [if_pos rfl, if_pos rfl]
    | there hne hne' hname =>
        rw [if_neg hne, if_neg hne']
        exact h.lookup name name' hname
  unbound name name' hname hnone := by
    rw [lookup_insert] at hnone
    cases hname with
    | here =>
        rw [if_pos rfl] at hnone
        cases hnone
    | there hne hne' hname =>
        rw [if_neg hne] at hnone
        exact h.unbound name name' hname hnone

theorem apply (h : Agree scope env env') (s : Subst) :
    Agree scope (env.apply s) (env'.apply s) where
  lookup name name' hname := by
    rw [lookup_apply, lookup_apply, h.lookup name name' hname]
  unbound name name' hname hnone := by
    rw [lookup_apply, Option.map_eq_none_iff] at hnone
    exact h.unbound name name' hname hnone

end Agree

theorem generalize_congr {env env' : Env} {t : Ty}
    (h : ∀ v ∈ t.vars, env.Free v ↔ env'.Free v) : env.generalize t = env'.generalize t := by
  have hfilter : t.freeVars.filter (! env.freeVars.contains ·) =
      t.freeVars.filter (! env'.freeVars.contains ·) := by
    refine Std.ExtTreeSet.ext_mem fun v => ?_
    rw [← Std.ExtTreeSet.mem_toList, ← Std.ExtTreeSet.mem_toList]
    change v ∈ (env.generalize t).vars ↔ v ∈ (env'.generalize t).vars
    rw [mem_vars_generalize, mem_vars_generalize]
    exact and_congr_right fun hv => not_congr (h v hv)
  rw [generalize, generalize, hfilter]

end Env

namespace Term

namespace Confined

variable {env env' : Env} {pool pool' : VarPool} {s : Subst} {t : Ty}

/-- What is free on one side in the type of a run is free on the other. -/
theorem free_apply (h : Confined env' pool s t pool') (hguard : env.Guarded pool)
    (hguard' : env'.Guarded pool) {v : String} (hv : v ∈ t.vars)
    (hfree : (env.apply s).Free v) : (env'.apply s).Free v := by
  obtain ⟨w, hw, hvw⟩ := Env.free_apply hfree
  by_cases hw' : env'.Free w
  · obtain ⟨name, scheme, hlookup, hscheme⟩ := hw'
    have havoids := hguard'.avoids h.subst hlookup
    refine ⟨name, s.applyScheme scheme, ?_, ?_⟩
    · rw [Env.lookup_apply, hlookup, Option.map_some]
    · exact Subst.free_applyScheme.2 ⟨⟨w, hscheme, hvw⟩, havoids w hscheme v hvw⟩
  · -- the other run does not move `w`, and its type would mention it nevertheless
    have hout : ¬ env'.Scope pool pool' w := by
      intro hscope
      rcases hscope with hfree' | ⟨-, hunused⟩
      · exact hw' hfree'
      · exact hunused (hguard.used w hw)
    rw [h.subst.image_eq hout] at hvw
    obtain rfl := Ty.mem_vars_var.1 hvw
    exact (hout (h.type v hv)).elim

theorem generalize_eq (h : Confined env pool s t pool') (h' : Confined env' pool s t pool')
    (hguard : env.Guarded pool) (hguard' : env'.Guarded pool) :
    (env.apply s).generalize t = (env'.apply s).generalize t :=
  Env.generalize_congr fun _ hv =>
    ⟨h'.free_apply hguard hguard' hv, h.free_apply hguard' hguard hv⟩

end Confined

theorem AlphaEq.run_infer_eq {scope : List (String × String)} {e e' : Term}
    (h : AlphaEq scope e e') {env env' : Env} {st : InferState} (hagree : env.Agree scope env')
    (hpool : st.pool.Distinct) (hguard : env.Guarded st.pool) (hguard' : env'.Guarded st.pool)
    (hlits : e.LitsGround) (hspares : e.SparesHidden env st.pool)
    (hspares' : e'.SparesHidden env' st.pool) :
    (e.infer env).run st = (e'.infer env').run st := by
  induction h generalizing env env' st with
  | @var scope name name' tag hname =>
      rw [infer, infer, ← hagree.lookup name name' hname]
      cases hlookup : env.lookup name with
      | none => rw [hagree.unbound name name' hname hlookup]
      | some scheme => rfl
  | lit t tag => rw [infer, infer]
  | @lam scope param param' body body' tag hbody ih =>
      have hissues := VarPool.allocate_issues hpool
      have hagreeBody := hagree.insert param param' (.mono (.var st.pool.allocate.1))
      have hrunBody : (body.infer _).run { st with pool := st.pool.allocate.2 } =
          (body'.infer _).run { st with pool := st.pool.allocate.2 } :=
        ih hagreeBody hissues.distinct (hguard.insert_mono hissues param)
          (hguard'.insert_mono hissues param') hlits hspares hspares'
      rw [infer, infer]
      refine InferM.run_bind_congr rfl fun paramTy st₁ hfresh => ?_
      obtain ⟨heq, rfl⟩ := Prod.mk.inj ((InferM.run_freshVar st).symm.trans hfresh)
      obtain rfl := Except.ok.inj heq
      exact InferM.run_bind_congr hrunBody fun _ _ _ => rfl
  | @app scope func func' arg arg' tag hfunc harg ihf iha =>
      have hrunFunc := ihf hagree hpool hguard hguard' hlits.1 hspares.1 hspares'.1
      rw [infer, infer]
      refine InferM.run_bind_congr hrunFunc fun answer st₁ hrun => ?_
      obtain ⟨s₁, t₁⟩ := answer
      have hinfers := infers_of_run hrun
      have hinfers' := infers_of_run (hrunFunc.symm.trans hrun)
      have hconfined := hinfers.confined hpool hguard hlits.1
      have hconfined' := hinfers'.confined hpool hguard' (hfunc.litsGround hlits.1)
      refine InferM.run_bind_congr ?_ fun _ _ _ => rfl
      exact iha (hagree.apply s₁) hconfined.distinct (hconfined.guarded_apply hguard)
        (hconfined'.guarded_apply hguard') hlits.2 (hspares.2 s₁ t₁ st₁.pool hinfers)
        (hspares'.2 s₁ t₁ st₁.pool hinfers')
  | @letIn scope name name' bound bound' body body' tag hbound hbody ihb ihe =>
      have hrunBound := ihb hagree hpool hguard hguard' hlits.1 hspares.1 hspares'.1
      rw [infer, infer]
      refine InferM.run_bind_congr hrunBound fun answer st₁ hrun => ?_
      obtain ⟨s₁, t₁⟩ := answer
      have hinfers := infers_of_run hrun
      have hinfers' := infers_of_run (hrunBound.symm.trans hrun)
      have hconfined := hinfers.confined hpool hguard hlits.1
      have hconfined' := hinfers'.confined hpool hguard' (hbound.litsGround hlits.1)
      obtain ⟨hkept, hsparesBody⟩ := hspares.2 s₁ t₁ st₁.pool hinfers
      obtain ⟨hkept', hsparesBody'⟩ := hspares'.2 s₁ t₁ st₁.pool hinfers'
      -- with the hidden bindings put back, both sides generalize in full environments
      have hagreeBody : Env.Agree ((name, name') :: scope) (env.define name s₁ t₁)
          (env'.define name' s₁ t₁) := by
        rw [Env.define_eq, Env.define_eq, ← Env.apply_erase, ← Env.apply_erase, hkept, hkept',
          hconfined.generalize_eq hconfined' hguard hguard']
        exact (hagree.apply s₁).insert name name' _
      have hrunBody := ihe hagreeBody hconfined.distinct (hconfined.guarded_define hguard name)
        (hconfined'.guarded_define hguard' name') hlits.2 hsparesBody hsparesBody'
      exact InferM.run_bind_congr hrunBody fun _ _ _ => rfl

/-- `\x -> let x = x in x x` has a type, and with another name for its parameter it has none:
the definition hides the parameter, so that the parameter's type is generalized. -/
theorem not_infer_eq_of_alphaEq :
    ¬ ∀ (env : Env) (e e' : Term) (st : InferState), st.pool.Distinct →
      (∀ name scheme, env.lookup name = some scheme → scheme.Closed) → e.LitsGround →
      AlphaEq [] e e' →
      ((e.infer env).run st).1.toOption = ((e'.infer env).run st).1.toOption := by
  intro hall
  let body : Term := .app (.var "x" none) (.var "x" none) none
  have halpha : AlphaEq [] (.lam "x" (.letIn "x" (.var "x" none) body none) none)
      (.lam "y" (.letIn "x" (.var "y" none) body none) none) :=
    .lam none (.letIn none (.var none (.here "x" "y"))
      (.app none (.var none (.here "x" "x")) (.var none (.here "x" "x"))))
  have heq := hall .empty _ _ ⟨.default, []⟩ (VarPool.distinct_withColour _)
    (fun name scheme hlookup => by simp [Env.lookup, Env.empty] at hlookup)
    (by simp [LitsGround, body]) halpha
  have hsome : ((infer .empty (.lam "x" (.letIn "x" (.var "x" none) body none) none)).run
      ⟨.default, []⟩).1.toOption.isSome = true := by
    cbv
  have hnone : ((infer .empty (.lam "y" (.letIn "x" (.var "y" none) body none) none)).run
      ⟨.default, []⟩).1.toOption.isSome = false := by
    cbv
  rw [heq, hnone] at hsome
  cases hsome

/-- Inference does not depend on the names of bound variables, as long as no local definition
takes advantage of the binding that its name hides. -/
theorem infer_eq_of_alphaEq {env : Env} {e e' : Term} (st : InferState)
    (hpool : st.pool.Distinct) (henv : env.Admissible st.pool) (hlits : e.LitsGround)
    (halpha : AlphaEq [] e e') (hspares : e.SparesHidden env st.pool)
    (hspares' : e'.SparesHidden env st.pool) : (e.infer env).run st = (e'.infer env).run st :=
  halpha.run_infer_eq (.refl env) hpool henv.guarded henv.guarded hlits hspares hspares'

/-- `\x -> let x = \x -> x in x x` with all names different. -/
theorem infer_eq_hiding_let :
    (infer .empty (.lam "x" (.letIn "x" (.lam "x" (.var "x" none) none)
        (.app (.var "x" none) (.var "x" none) none) none) none)).run ⟨.default, []⟩ =
      (infer .empty (.lam "a" (.letIn "b" (.lam "c" (.var "c" none) none)
        (.app (.var "b" none) (.var "b" none) none) none) none)).run ⟨.default, []⟩ := by
  refine infer_eq_of_alphaEq _ (VarPool.distinct_withColour _) (Env.admissible_empty _) ?_ ?_ ?_ ?_
  · simp [LitsGround]
  · exact .lam none (.letIn none (.lam none (.var none (.here "x" "c")))
      (.app none (.var none (.here "x" "b")) (.var none (.here "x" "b"))))
  · refine ⟨trivial, fun s₁ t₁ pool₁ hinfers => ⟨?_, trivial, fun _ _ _ _ => trivial⟩⟩
    have hrun : (infer (Env.empty.insert "x" (.mono (.var "A")))
        (.lam "x" (.var "x" none) none)).run ⟨VarPool.default.reserve "A", []⟩ =
        (.ok (.empty, .fn (.var "B") (.var "B")),
          ⟨(VarPool.default.reserve "A").reserve "B", []⟩) := by
      cbv
    obtain ⟨rfl, rfl, -⟩ := hinfers.unique (infers_of_run hrun)
    cbv
  · have hnames : Env.empty.NamesIn fun _ => False := by
      intro name scheme hlookup
      simp [Env.lookup, Env.empty] at hlookup
    exact NewLets.sparesHidden (by simp [NewLets]) hnames _

end Term

end Plugboard
