import Plugboard.Proofs.InferenceScope

/-!
# Declarative typing

The rules that say which types a term has, with no mention of substitutions or pools. A
variable has every instance of its scheme, the parameter of an abstraction is monomorphic, and
a local definition is generalized over the variables that are not free in the environment.

Schemes are compared under a map on variables: one at least as general as another has all of
its instances, and one at most as general has no others. Both survive generalization, the
first after the quantified variables have been renamed out of the way.
-/

namespace Plugboard

theorem Ty.bind_of_ground {t : Ty} (h : t.vars = []) (r : String → Ty) : t.bind r = t := by
  refine (bind_congr fun v hv => ?_).trans (bind_var t)
  rw [h] at hv
  cases hv

theorem Ty.bind_curried (f : String → Ty) (args : List Ty) (result : Ty) :
    (curried args result).bind f = curried (args.map (bind f)) (result.bind f) := by
  induction args with
  | nil => rfl
  | cons arg args ih => exact congrArg (fn (arg.bind f)) ih

/-- The body of the scheme is `t`, and it quantifies what is not free in the environment. -/
def Scheme.Generalizes (scheme : Scheme) (env : Env) (t : Ty) : Prop :=
  scheme.body = t ∧ ∀ v, v ∈ scheme.vars ↔ v ∈ t.vars ∧ ¬ env.Free v

inductive HasType : Env → Term → Ty → Prop
  | var {env : Env} {name : String} {scheme : Scheme} {t : Ty} (tag : Option Tag)
      (hlookup : env.lookup name = some scheme) (hinst : scheme.Instance t) :
      HasType env (.var name tag) t
  | lit {env : Env} (t : Ty) (tag : Option Tag) : HasType env (.lit t tag) t
  | lam {env : Env} {param : String} {body : Term} {a t : Ty} (tag : Option Tag)
      (hbody : HasType (env.insert param (.mono a)) body t) :
      HasType env (.lam param body tag) (.fn a t)
  | app {env : Env} {func arg : Term} {a t : Ty} (tag : Option Tag)
      (hfunc : HasType env func (.fn a t)) (harg : HasType env arg a) :
      HasType env (.app func arg tag) t
  | letIn {env : Env} {name : String} {bound body : Term} {u t : Ty} {scheme : Scheme}
      (tag : Option Tag) (hbound : HasType env bound u) (hscheme : scheme.Generalizes env u)
      (hbody : HasType (env.insert name scheme) body t) :
      HasType env (.letIn name bound body tag) t

/-- All names of an environment are in a scope. -/
def Env.NamesIn (env : Env) (scope : String → Prop) : Prop :=
  ∀ name scheme, env.lookup name = some scheme → scope name

namespace Env.NamesIn

variable {env : Env} {scope : String → Prop}

theorem insert (h : env.NamesIn scope) (name : String) (scheme : Scheme) :
    (env.insert name scheme).NamesIn fun name' => name' = name ∨ scope name' := by
  intro name' scheme' hlookup
  rw [lookup_insert] at hlookup
  split at hlookup
  next heq => exact .inl heq.symm
  next => exact .inr (h name' scheme' hlookup)

theorem apply (h : env.NamesIn scope) (s : Subst) : (env.apply s).NamesIn scope := by
  intro name scheme hlookup
  rw [lookup_apply, Option.map_eq_some_iff] at hlookup
  obtain ⟨scheme, hlookup, -⟩ := hlookup
  exact h name scheme hlookup

/-- Nothing is lost with a new name. -/
theorem erase_eq (h : env.NamesIn scope) {name : String} (hnew : ¬ scope name) :
    env.erase name = env := by
  refine erase_of_lookup_eq_none ?_
  cases hlookup : env.lookup name with
  | none => rfl
  | some scheme => exact (hnew (h name scheme hlookup)).elim

end Env.NamesIn

namespace Term

/-- No local definition takes a name of the scope, which grows with every binder on the way
to it. -/
def NewLets (scope : String → Prop) : Term → Prop
  | .var _ _ => True
  | .lit _ _ => True
  | .app func arg _ => func.NewLets scope ∧ arg.NewLets scope
  | .lam param body _ => body.NewLets fun name => name = param ∨ scope name
  | .letIn name bound body _ =>
      ¬ scope name ∧ bound.NewLets scope ∧ body.NewLets fun name' => name' = name ∨ scope name'

end Term

namespace Scheme

variable {r : String → Ty} {scheme scheme' : Scheme}

theorem Generalizes.free_iff {env : Env} {t : Ty} (h : scheme.Generalizes env t) {v : String} :
    scheme.Free v ↔ v ∈ t.vars ∧ env.Free v := by
  rw [Free, h.1, h.2]
  constructor
  · rintro ⟨hv, hq⟩
    exact ⟨hv, Classical.byContradiction fun hfree => hq ⟨hv, hfree⟩⟩
  · rintro ⟨hv, hfree⟩
    exact ⟨hv, fun hq => hq.2 hfree⟩

theorem generalize_generalizes (env : Env) (t : Ty) : (env.generalize t).Generalizes env t :=
  ⟨rfl, fun _ => Env.mem_vars_generalize⟩

/-- The second scheme is at least as general as the first is under `r`. -/
def AtLeast (r : String → Ty) (scheme scheme' : Scheme) : Prop :=
  ∀ t, scheme.InstanceUnder r t → scheme'.Instance t

/-- The second scheme is at most as general as the first is under `r`. -/
structure AtMost (r : String → Ty) (scheme scheme' : Scheme) : Prop where
  instances : ∀ t, scheme'.Instance t → scheme.InstanceUnder r t
  free : ∀ v, scheme.Free v → ∀ w ∈ (r v).vars, scheme'.Free w

theorem atLeast_mono (r : String → Ty) (t : Ty) : AtLeast r (mono t) (mono (t.bind r)) := by
  intro u hu
  exact instance_mono.2 (instanceUnder_mono.1 hu)

theorem atMost_mono (r : String → Ty) (t : Ty) : AtMost r (mono t) (mono (t.bind r)) where
  instances _ hu := instanceUnder_mono.2 (instance_mono.1 hu)
  free v hv _ hw := free_mono.2 (Ty.mem_vars_bind.2 ⟨v, free_mono.1 hv, hw⟩)

theorem AtLeast.congr {r' : String → Ty} (h : AtLeast r scheme scheme')
    (hr : ∀ v, scheme.Free v → r v = r' v) : AtLeast r' scheme scheme' :=
  fun t ht => h t (ht.congr fun v hv => (hr v hv).symm)

theorem AtMost.congr {r' : String → Ty} (h : AtMost r scheme scheme')
    (hr : ∀ v, scheme.Free v → r v = r' v) : AtMost r' scheme scheme' where
  instances t ht := (h.instances t ht).congr hr
  free v hv w hw := h.free v hv w (by rw [hr v hv]; exact hw)

/-- A map after a substitution, on a scheme in which the substitution captures nothing. -/
theorem AtLeast.applyScheme {s : Subst} (havoids : s.Avoids scheme)
    (h : AtLeast (s.andThen r) scheme scheme') :
    AtLeast r (s.applyScheme scheme) scheme' :=
  fun t ht => h t ((Subst.instanceUnder_applyScheme havoids).1 ht)

theorem AtMost.applyScheme {s : Subst} (havoids : s.Avoids scheme)
    (h : AtMost (s.andThen r) scheme scheme') :
    AtMost r (s.applyScheme scheme) scheme' where
  instances t ht := (Subst.instanceUnder_applyScheme havoids).2 (h.instances t ht)
  free v hv w hw := by
    obtain ⟨⟨u, hu, hv⟩, -⟩ := Subst.free_applyScheme.1 hv
    exact h.free u hu w (Ty.mem_vars_bind.2 ⟨v, hv, hw⟩)

/-- What a substitution makes of a scheme, if it captures nothing. -/
theorem atLeast_applyScheme {s : Subst} (havoids : s.Avoids scheme) :
    AtLeast s.image scheme (s.applyScheme scheme) := by
  intro t ht
  rw [Instance, Subst.instanceUnder_applyScheme havoids, Subst.andThen_var]
  exact ht

theorem atMost_applyScheme {s : Subst} (havoids : s.Avoids scheme) :
    AtMost s.image scheme (s.applyScheme scheme) where
  instances t ht := by
    rw [Instance, Subst.instanceUnder_applyScheme havoids, Subst.andThen_var] at ht
    exact ht
  free v hv w hw := Subst.free_applyScheme.2 ⟨⟨v, hv, hw⟩, havoids v hv w hw⟩

/-- Generalizing a more general type in a more general environment. -/
theorem Generalizes.atMost {env env' : Env} {t : Ty} (h : scheme.Generalizes env t)
    (h' : scheme'.Generalizes env' (t.bind r))
    (henv : ∀ v, env.Free v → ∀ w ∈ (r v).vars, env'.Free w) : AtMost r scheme scheme' where
  instances u hu := by
    obtain ⟨f, hf, rfl⟩ := hu
    rw [h'.1, Ty.bind_bind]
    refine ⟨fun v => (r v).bind f, fun v hv => ?_, by rw [h.1]⟩
    obtain ⟨hmem, hfree⟩ := h.free_iff.1 hv
    -- what `r` makes of a variable free in the environment has nothing quantified left in it
    have hfix : (r v).bind f = (r v).bind .var := Ty.bind_congr fun w hw =>
      hf w (h'.free_iff.2 ⟨Ty.mem_vars_bind.2 ⟨v, hmem, hw⟩, henv v hfree w hw⟩)
    exact hfix.trans (Ty.bind_var _)
  free v hv w hw := by
    obtain ⟨hmem, hfree⟩ := h.free_iff.1 hv
    exact h'.free_iff.2 ⟨Ty.mem_vars_bind.2 ⟨v, hmem, hw⟩, henv v hfree w hw⟩

end Scheme

/-- Names can be changed so that different ones stay different and none gets into a list. -/
theorem exists_injective_avoiding (avoid : List String) :
    ∃ f : String → String, (∀ v w, f v = f w → v = w) ∧ ∀ v, f v ∉ avoid := by
  obtain ⟨bound, hbound⟩ : ∃ bound, ∀ v ∈ avoid, v.length ≤ bound := by
    induction avoid with
    | nil => exact ⟨0, by simp⟩
    | cons v vs ih =>
        obtain ⟨bound, hbound⟩ := ih
        refine ⟨max v.length bound, fun w hw => ?_⟩
        rcases List.mem_cons.1 hw with rfl | hw
        · exact Nat.le_max_left ..
        · exact Nat.le_trans (hbound w hw) (Nat.le_max_right ..)
  let pad := List.replicate (bound + 1) 'a'
  refine ⟨fun v => String.ofList (pad ++ v.toList), fun v w h => ?_, fun v hv => ?_⟩
  · have hlist := congrArg String.toList h
    simp only [String.toList_ofList] at hlist
    exact String.toList_inj.1 (List.append_cancel_left hlist)
  · have hle := hbound _ hv
    simp [pad, String.length_ofList] at hle
    omega

/-- Generalizing after the quantified variables have been renamed out of the way. -/
theorem Scheme.AtLeast.exists_renaming {scheme : Scheme} {env : Env} {t : Ty}
    (h : scheme.Generalizes env t) (env' : Env) (r : String → Ty) :
    ∃ r' : String → Ty, (∀ v, v ∉ scheme.vars → r' v = r v) ∧
      ∀ scheme', scheme'.Generalizes env' (t.bind r') → AtLeast r scheme scheme' := by
  obtain ⟨f, hinj, havoid⟩ :=
    exists_injective_avoiding (env'.freeVars.toList ++ t.vars.flatMap fun v => (r v).vars)
  have havoid' : ∀ v, ¬ env'.Free (f v) := fun v hv => havoid v (List.mem_append_left _
    (Std.ExtTreeSet.mem_toList.2 (Env.mem_freeVars.2 hv)))
  have hnew : ∀ v ∈ t.vars, ∀ w, f w ∉ (r v).vars := fun v hv w hw =>
    havoid w (List.mem_append_right _ (List.mem_flatMap.2 ⟨v, hv, hw⟩))
  refine ⟨fun v => if v ∈ scheme.vars then .var (f v) else r v, fun v hv => if_neg hv, ?_⟩
  intro scheme' h'
  classical
  rintro u ⟨g, hg, rfl⟩
  -- undo the renaming, and leave alone what is not the new name of a quantified variable
  refine ⟨fun w => if hw : ∃ v ∈ scheme.vars, f v = w then g hw.choose else .var w, ?_, ?_⟩
  · intro w hw
    refine dif_neg ?_
    rintro ⟨v, -, rfl⟩
    exact havoid' v (h'.free_iff.1 hw).2
  · rw [h'.1, h.1, Ty.bind_bind]
    refine Ty.bind_congr fun v hv => ?_
    by_cases hq : v ∈ scheme.vars
    · have hex : ∃ v' ∈ scheme.vars, f v' = f v := ⟨v, hq, rfl⟩
      have hsame : hex.choose = v := hinj _ _ hex.choose_spec.2
      rw [if_pos hq, Ty.bind, dif_pos hex, hsame]
    · rw [if_neg hq, hg v ⟨h.1 ▸ hv, hq⟩]
      refine (Ty.bind_congr fun w hw => dif_neg ?_).trans (Ty.bind_var _)
      rintro ⟨v', -, rfl⟩
      exact hnew v hv v' hw

namespace Env.Relates

variable {r : String → Ty} {env env' : Env}

theorem map_left {R R' : Scheme → Scheme → Prop} {env₁ : Env} {f : Scheme → Scheme}
    (h : env.Relates R env') (hlookup : ∀ name, env₁.lookup name = (env.lookup name).map f)
    (hR : ∀ name scheme scheme', env.lookup name = some scheme → R scheme scheme' →
      R' (f scheme) scheme') : env₁.Relates R' env' := by
  intro name
  have hrel := h name
  rw [hlookup]
  generalize env'.lookup name = found at hrel ⊢
  cases hfound : env.lookup name with
  | none =>
      rw [hfound] at hrel
      cases hrel
      exact .none
  | some scheme =>
      rw [hfound] at hrel
      cases hrel with
      | some hrelated => exact .some (hR name scheme _ hfound hrelated)

theorem imp {R R' : Scheme → Scheme → Prop} (h : env.Relates R env')
    (hR : ∀ name scheme scheme', env.lookup name = some scheme → R scheme scheme' →
      R' scheme scheme') : env.Relates R' env' :=
  h.map_left (fun _ => Option.map_id'.symm) hR

theorem apply {R R' : Scheme → Scheme → Prop} {s : Subst} (h : env.Relates R env')
    (hR : ∀ name scheme scheme', env.lookup name = some scheme → R scheme scheme' →
      R' (s.applyScheme scheme) scheme') : (env.apply s).Relates R' env' :=
  h.map_left (lookup_apply s env) hR

theorem apply_right {R : Scheme → Scheme → Prop} {s : Subst}
    (hR : ∀ name scheme, env.lookup name = some scheme → R scheme (s.applyScheme scheme)) :
    env.Relates R (env.apply s) := by
  intro name
  rw [lookup_apply]
  cases hlookup : env.lookup name with
  | none => exact .none
  | some scheme => exact .some (hR name scheme hlookup)

theorem insertMany {R : Scheme → Scheme → Prop} (h : env.Relates R env')
    {bindings bindings' : List (String × Scheme)}
    (hR : List.Forall₂ (fun binding binding' => binding.1 = binding'.1 ∧ R binding.2 binding'.2)
      bindings bindings') : (env.insertMany bindings).Relates R (env'.insertMany bindings') := by
  induction hR generalizing env env' with
  | nil => exact h
  | @cons binding binding' _ _ hhead _ ih =>
      obtain ⟨name, scheme⟩ := binding
      obtain ⟨name', scheme'⟩ := binding'
      obtain ⟨rfl, hhead⟩ := hhead
      exact ih (h.insert name hhead)

theorem free_atMost (h : env.Relates (Scheme.AtMost r) env') {v w : String} (hv : env.Free v)
    (hw : w ∈ (r v).vars) : env'.Free w := by
  obtain ⟨name, scheme, hlookup, hv⟩ := hv
  obtain ⟨scheme', hlookup', hrelated⟩ := h.left hlookup
  exact ⟨name, scheme', hlookup', hrelated.free v hv w hw⟩

end Env.Relates

end Plugboard
