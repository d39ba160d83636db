import Plugboard.Env
import Plugboard.Proofs.MostGeneral

/-!
# Free variables and instances of schemes

An instance of a scheme leaves its free variables alone and puts any types in place of the
quantified ones. Under a map, the free variables become what the map says instead. That is
what applying a substitution to a scheme amounts to, as long as no image of a free variable
mentions a quantified name.
-/

namespace Plugboard

namespace Scheme

def Free (scheme : Scheme) (v : String) : Prop := v ∈ scheme.body.vars ∧ v ∉ scheme.vars

/-- A scheme without free variables. -/
def Closed (scheme : Scheme) : Prop := ∀ v, ¬ scheme.Free v

/-- `t` is the body with its free variables replaced as `r` says, and the others at will. -/
def InstanceUnder (r : String → Ty) (scheme : Scheme) (t : Ty) : Prop :=
  ∃ f : String → Ty, (∀ v, scheme.Free v → f v = r v) ∧ scheme.body.bind f = t

abbrev Instance (scheme : Scheme) (t : Ty) : Prop := scheme.InstanceUnder .var t

theorem mem_freeVars {scheme : Scheme} {v : String} :
    v ∈ scheme.freeVars ↔ scheme.Free v := by
  simp [freeVars, Free, Ty.freeVars, Std.ExtTreeSet.mem_filter, Std.ExtTreeSet.mem_ofList]

theorem free_mono {t : Ty} {v : String} : (mono t).Free v ↔ v ∈ t.vars := by
  simp [Free, mono]

theorem instanceUnder_mono {r : String → Ty} {t u : Ty} :
    (mono t).InstanceUnder r u ↔ t.bind r = u := by
  constructor
  · rintro ⟨f, hf, rfl⟩
    exact Ty.bind_congr fun v hv => (hf v (free_mono.2 hv)).symm
  · rintro rfl
    exact ⟨r, fun _ _ => rfl, rfl⟩

theorem instance_mono {t u : Ty} : (mono t).Instance u ↔ t = u := by
  rw [Instance, instanceUnder_mono, Ty.bind_var]

theorem instance_body (scheme : Scheme) : scheme.Instance scheme.body :=
  ⟨.var, fun _ _ => rfl, Ty.bind_var scheme.body⟩

theorem InstanceUnder.congr {r r' : String → Ty} {scheme : Scheme} {t : Ty}
    (h : scheme.InstanceUnder r t) (hr : ∀ v, scheme.Free v → r v = r' v) :
    scheme.InstanceUnder r' t := by
  obtain ⟨f, hf, ht⟩ := h
  exact ⟨f, fun v hv => (hf v hv).trans (hr v hv), ht⟩

end Scheme

namespace Subst

/-- No image of a free variable of a scheme mentions a quantified name. -/
def Avoids (s : Subst) (scheme : Scheme) : Prop :=
  ∀ v, scheme.Free v → ∀ w ∈ (s.image v).vars, w ∉ scheme.vars

theorem image_without (s : Subst) (names : List String) (v : String) :
    (s.without names).image v = if v ∈ names then .var v else s.image v := by
  by_cases hv : v ∈ names
  · simp [image, without, hv]
  · cases hs : s.bindings[v]? <;> simp [image, without, hv, hs, Option.filter]

theorem applyScheme_body (s : Subst) (scheme : Scheme) :
    (s.applyScheme scheme).body =
      scheme.body.bind fun v => if v ∈ scheme.vars then .var v else s.image v :=
  Ty.bind_congr fun v _ => image_without s scheme.vars v

theorem applyScheme_mono (s : Subst) (t : Ty) : s.applyScheme (.mono t) = .mono (s.apply t) := by
  have hbody := applyScheme_body s (.mono t)
  simpa [applyScheme, Scheme.mono, apply] using hbody

theorem applyScheme_of_closed (s : Subst) {scheme : Scheme} (h : scheme.Closed) :
    s.applyScheme scheme = scheme := by
  have hbody : (s.applyScheme scheme).body = scheme.body := by
    rw [applyScheme_body]
    refine (Ty.bind_congr fun v hv => ?_).trans (Ty.bind_var _)
    exact if_pos (Classical.byContradiction fun hq => h v ⟨hv, hq⟩)
  exact congrArg (Scheme.mk scheme.vars) hbody

theorem free_applyScheme {s : Subst} {scheme : Scheme} {w : String} :
    (s.applyScheme scheme).Free w ↔
      (∃ v, scheme.Free v ∧ w ∈ (s.image v).vars) ∧ w ∉ scheme.vars := by
  constructor
  · rintro ⟨hbody, hq⟩
    rw [applyScheme_body, Ty.mem_vars_bind] at hbody
    obtain ⟨v, hv, hw⟩ := hbody
    refine ⟨?_, hq⟩
    by_cases hvq : v ∈ scheme.vars
    · rw [if_pos hvq] at hw
      obtain rfl := Ty.mem_vars_var.1 hw
      exact (hq hvq).elim
    · rw [if_neg hvq] at hw
      exact ⟨v, ⟨hv, hvq⟩, hw⟩
  · rintro ⟨⟨v, ⟨hv, hvq⟩, hw⟩, hq⟩
    refine ⟨?_, hq⟩
    rw [applyScheme_body, Ty.mem_vars_bind]
    exact ⟨v, hv, by rw [if_neg hvq]; exact hw⟩

/-- Where nothing is captured, the instances of an applied scheme are those of the scheme
under the composed map. -/
theorem instanceUnder_applyScheme {s : Subst} {scheme : Scheme} (h : s.Avoids scheme)
    {r : String → Ty} {t : Ty} :
    (s.applyScheme scheme).InstanceUnder r t ↔
      scheme.InstanceUnder (s.andThen r) t := by
  constructor
  · rintro ⟨f, hf, rfl⟩
    refine ⟨fun v => if v ∈ scheme.vars then f v else (s.image v).bind f, fun v hv => ?_, ?_⟩
    · refine (if_neg hv.2).trans ?_
      exact Ty.bind_congr fun w hw => hf w (free_applyScheme.2 ⟨⟨v, hv, hw⟩, h v hv w hw⟩)
    · rw [applyScheme_body, Ty.bind_bind]
      refine Ty.bind_congr fun v _ => ?_
      by_cases hv : v ∈ scheme.vars <;> simp [hv, Ty.bind]
  · rintro ⟨g, hg, rfl⟩
    -- quantified names keep what they were given, all others follow the outer map
    refine ⟨fun v => if v ∈ scheme.vars then g v else r v, fun v hv => if_neg hv.2, ?_⟩
    rw [applyScheme_body, Ty.bind_bind]
    refine Ty.bind_congr fun v hv => ?_
    by_cases hvq : v ∈ scheme.vars
    · simp [hvq, Ty.bind]
    · rw [if_neg hvq, hg v ⟨hv, hvq⟩]
      exact Ty.bind_congr fun w hw => if_neg (h v ⟨hv, hvq⟩ w hw)

end Subst

namespace Env

/-- A variable that is free in some scheme of an environment. -/
def Free (env : Env) (v : String) : Prop := ∃ name scheme,
  env.lookup name = some scheme ∧ scheme.Free v

theorem lookup_insert (env : Env) (name name' : String) (scheme : Scheme) :
    (env.insert name scheme).lookup name' =
      if name = name' then some scheme else env.lookup name' := by
  simp [lookup, insert, Std.ExtTreeMap.getElem?_insert]

theorem lookup_insert_self (env : Env) (name : String) (scheme : Scheme) :
    (env.insert name scheme).lookup name = some scheme := by
  rw [lookup_insert, if_pos rfl]

theorem lookup_erase (env : Env) (name name' : String) :
    (env.erase name).lookup name' = if name = name' then none else env.lookup name' := by
  simp [lookup, erase, Std.ExtTreeMap.getElem?_erase]

theorem lookup_apply (s : Subst) (env : Env) (name : String) :
    (env.apply s).lookup name = (env.lookup name).map s.applyScheme := by
  simp [lookup, apply, Std.ExtTreeMap.getElem?_map]

theorem free_insert {env : Env} {name : String} {scheme : Scheme} {v : String}
    (h : (env.insert name scheme).Free v) : scheme.Free v ∨ env.Free v := by
  obtain ⟨name', scheme', hlookup, hv⟩ := h
  rw [lookup_insert] at hlookup
  split at hlookup
  next =>
    obtain rfl := Option.some.inj hlookup
    exact .inl hv
  next => exact .inr ⟨name', scheme', hlookup, hv⟩

theorem free_erase {env : Env} {name v : String} (h : (env.erase name).Free v) : env.Free v := by
  obtain ⟨name', scheme, hlookup, hv⟩ := h
  rw [lookup_erase] at hlookup
  split at hlookup
  next => cases hlookup
  next => exact ⟨name', scheme, hlookup, hv⟩

theorem free_apply {s : Subst} {env : Env} {w : String} (h : (env.apply s).Free w) :
    ∃ v, env.Free v ∧ w ∈ (s.image v).vars := by
  obtain ⟨name, scheme, hlookup, hw⟩ := h
  rw [lookup_apply, Option.map_eq_some_iff] at hlookup
  obtain ⟨scheme, hlookup, rfl⟩ := hlookup
  obtain ⟨⟨v, hv, hmem⟩, -⟩ := Subst.free_applyScheme.1 hw
  exact ⟨v, ⟨name, scheme, hlookup, hv⟩, hmem⟩

theorem mem_freeVars {env : Env} {v : String} : v ∈ env.freeVars ↔ env.Free v := by
  have hfold : ∀ (bindings : List (String × Scheme)) (names : NameSet),
      v ∈ bindings.foldl (fun names b => names ∪ b.2.freeVars) names ↔
        v ∈ names ∨ ∃ b ∈ bindings, b.2.Free v := by
    intro bindings
    induction bindings with
    | nil => simp
    | cons b bs ih =>
        intro names
        rw [List.foldl_cons, ih, Std.ExtTreeSet.mem_union_iff, Scheme.mem_freeVars]
        simp [or_assoc]
  refine (hfold env.toList ∅).trans ?_
  simp only [Std.ExtTreeSet.not_mem_empty, false_or]
  constructor
  · rintro ⟨⟨name, scheme⟩, hmem, hv⟩
    exact ⟨name, scheme, Std.ExtTreeMap.mem_toList_iff_getElem?_eq_some.1 hmem, hv⟩
  · rintro ⟨name, scheme, hlookup, hv⟩
    exact ⟨⟨name, scheme⟩, Std.ExtTreeMap.mem_toList_iff_getElem?_eq_some.2 hlookup, hv⟩

theorem mem_vars_generalize {env : Env} {t : Ty} {v : String} :
    v ∈ (env.generalize t).vars ↔ v ∈ t.vars ∧ ¬ env.Free v := by
  have hnot : (! env.freeVars.contains v) = true ↔ ¬ env.Free v := by
    rw [← mem_freeVars, ← Std.ExtTreeSet.contains_iff_mem, Bool.not_eq_true', Bool.not_eq_true]
  rw [generalize, Std.ExtTreeSet.mem_toList, Std.ExtTreeSet.mem_filter, ← hnot]
  simp [Ty.freeVars, Std.ExtTreeSet.mem_ofList]

theorem free_generalize {env : Env} {t : Ty} {v : String} :
    (env.generalize t).Free v ↔ v ∈ t.vars ∧ env.Free v := by
  rw [Scheme.Free, mem_vars_generalize]
  constructor
  · rintro ⟨hv, hq⟩
    exact ⟨hv, Classical.byContradiction fun hfree => hq ⟨hv, hfree⟩⟩
  · rintro ⟨hv, hfree⟩
    exact ⟨hv, fun hq => hq.2 hfree⟩

/-- Two environments with the same names, whose schemes are related name by name. -/
def Relates (R : Scheme → Scheme → Prop) (env env' : Env) : Prop :=
  ∀ name, Option.Rel R (env.lookup name) (env'.lookup name)

namespace Relates

variable {R : Scheme → Scheme → Prop} {env env' : Env}

theorem insert (h : Relates R env env') (name : String) {scheme scheme' : Scheme}
    (hR : R scheme scheme') : Relates R (env.insert name scheme) (env'.insert name scheme') := by
  intro name'
  rw [lookup_insert, lookup_insert]
  by_cases hname : name = name'
  · rw [if_pos hname, if_pos hname]
    exact .some hR
  · rw [if_neg hname, if_neg hname]
    exact h name'

theorem left (h : Relates R env env') {name : String} {scheme : Scheme}
    (hlookup : env.lookup name = some scheme) :
    ∃ scheme', env'.lookup name = some scheme' ∧ R scheme scheme' := by
  have hrel := h name
  rw [hlookup] at hrel
  generalize env'.lookup name = found at hrel ⊢
  cases hrel with
  | some hR => exact ⟨_, rfl, hR⟩

theorem right (h : Relates R env env') {name : String} {scheme' : Scheme}
    (hlookup : env'.lookup name = some scheme') :
    ∃ scheme, env.lookup name = some scheme ∧ R scheme scheme' := by
  have hrel := h name
  rw [hlookup] at hrel
  generalize env.lookup name = found at hrel ⊢
  cases hrel with
  | some hR => exact ⟨_, rfl, hR⟩

end Relates

end Env

end Plugboard
