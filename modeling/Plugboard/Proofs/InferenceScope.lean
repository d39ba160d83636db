import Plugboard.Proofs.FreshNames
import Plugboard.Proofs.InferenceRun

/-!
# The variables that a run touches

A run of inference moves and mentions only variables that are free in its environment or
that it has allocated itself. This rests on the environment being guarded: its free variables
are in use, and so are the quantified names of any scheme that has free variables beside them,
which are in turn free nowhere in the environment. A run then captures nothing when it applies
its substitutions to schemes, and it leaves a guarded environment behind.
-/

namespace Plugboard

namespace Subst

/-- A substitution that moves and introduces only variables of a scope. -/
def Within (s : Subst) (scope : String → Prop) : Prop :=
  ∀ v, s.image v = .var v ∨ scope v ∧ ∀ w ∈ (s.image v).vars, scope w

namespace Within

variable {s : Subst} {scope : String → Prop}

theorem empty : Subst.empty.Within scope := fun v => .inl (image_empty v)

theorem mono {large : String → Prop} (h : s.Within scope) (hsub : ∀ v, scope v → large v) :
    s.Within large := by
  intro v
  rcases h v with hv | ⟨hv, himage⟩
  · exact .inl hv
  · exact .inr ⟨hsub v hv, fun w hw => hsub w (himage w hw)⟩

theorem image (h : s.Within scope) {v w : String} (hv : scope v) (hw : w ∈ (s.image v).vars) :
    scope w := by
  rcases h v with heq | ⟨-, himage⟩
  · rw [heq] at hw
    obtain rfl := Ty.mem_vars_var.1 hw
    exact hv
  · exact himage w hw

theorem apply (h : s.Within scope) {t : Ty} (ht : ∀ v ∈ t.vars, scope v) :
    ∀ w ∈ (s.apply t).vars, scope w := by
  intro w hw
  obtain ⟨v, hv, hw⟩ := mem_vars_apply.1 hw
  exact h.image (ht v hv) hw

theorem image_eq (h : s.Within scope) {v : String} (hv : ¬ scope v) : s.image v = .var v :=
  (h v).resolve_right fun hscope => hv hscope.1

theorem compose {second : Subst} (hs : second.Within scope) (hf : s.Within scope) :
    (second.compose s).Within scope := by
  intro v
  rw [image_compose]
  rcases hf v with hv | ⟨hv, himage⟩
  · rw [hv]
    exact hs v
  · exact .inr ⟨hv, hs.apply himage⟩

end Within

theorem Eliminates.within {s : Subst} {names : List String} (h : s.Eliminates names)
    {scope : String → Prop} (hnames : ∀ v ∈ names, scope v) : s.Within scope := by
  intro v
  by_cases hv : v ∈ s.bindings
  · have hmem := h.binds v hv
    exact .inr ⟨hnames v hmem, fun w hw => hnames w (h.introduces v hmem hw)⟩
  · exact .inl (image_of_not_mem hv)

end Subst

namespace Env

theorem ext_lookup {env env' : Env} (h : ∀ name, env.lookup name = env'.lookup name) :
    env = env' := by
  cases env
  cases env'
  congr 1
  exact Std.ExtTreeMap.ext_getElem? h

theorem apply_erase (s : Subst) (env : Env) (name : String) :
    (env.erase name).apply s = (env.apply s).erase name := by
  refine ext_lookup fun name' => ?_
  rw [lookup_apply, lookup_erase, lookup_erase, lookup_apply]
  by_cases h : name = name' <;> simp [h]

theorem insert_erase (env : Env) (name : String) (scheme : Scheme) :
    (env.erase name).insert name scheme = env.insert name scheme := by
  refine ext_lookup fun name' => ?_
  rw [lookup_insert, lookup_insert, lookup_erase]
  by_cases h : name = name' <;> simp [h]

theorem define_eq (env : Env) (name : String) (s : Subst) (t : Ty) :
    env.define name s t = (env.apply s).insert name (((env.apply s).erase name).generalize t) := by
  rw [define, apply_erase, insert_erase]

/-- A definition brings nothing into the environment that was not free in it already. -/
theorem free_define {env : Env} {name : String} {s : Subst} {t : Ty} {v : String}
    (h : (env.define name s t).Free v) : (env.apply s).Free v := by
  rw [define_eq] at h
  rcases free_insert h with hv | hv
  · exact free_erase (free_generalize.1 hv).2
  · exact hv

theorem erase_of_lookup_eq_none {env : Env} {name : String} (h : env.lookup name = none) :
    env.erase name = env := by
  refine ext_lookup fun name' => ?_
  rw [lookup_erase]
  by_cases heq : name = name'
  · rw [if_pos heq, ← heq, h]
  · rw [if_neg heq]

/-- Every scheme of an environment is closed, or it is monomorphic and its variables are in
use. -/
def Admissible (env : Env) (pool : VarPool) : Prop :=
  ∀ name scheme, env.lookup name = some scheme →
    scheme.Closed ∨ scheme.vars = [] ∧ ∀ v ∈ scheme.body.vars, pool.isUsed v

theorem admissible_empty (pool : VarPool) : Env.empty.Admissible pool := by
  intro name scheme hlookup
  simp [lookup, empty] at hlookup

theorem Admissible.insert_mono {env : Env} {pool : VarPool} (h : env.Admissible pool)
    (name : String) {t : Ty} (ht : ∀ v ∈ t.vars, pool.isUsed v) :
    (env.insert name (.mono t)).Admissible pool := by
  intro name' scheme hlookup
  rw [lookup_insert] at hlookup
  split at hlookup
  next =>
    obtain rfl := Option.some.inj hlookup
    exact .inr ⟨rfl, ht⟩
  next => exact h name' scheme hlookup

structure Guarded (env : Env) (pool : VarPool) : Prop where
  used : ∀ v, env.Free v → pool.isUsed v
  quantified : ∀ name scheme, env.lookup name = some scheme →
    scheme.Closed ∨ ∀ v ∈ scheme.vars, pool.isUsed v ∧ ¬ env.Free v

theorem Admissible.guarded {env : Env} {pool : VarPool} (h : env.Admissible pool) :
    env.Guarded pool where
  used v hv := by
    obtain ⟨name, scheme, hlookup, hfree⟩ := hv
    rcases h name scheme hlookup with hclosed | ⟨-, hused⟩
    · exact (hclosed v hfree).elim
    · exact hused v hfree.1
  quantified name scheme hlookup := by
    rcases h name scheme hlookup with hclosed | ⟨hmono, -⟩
    · exact .inl hclosed
    · rw [hmono]
      exact .inr fun v hv => by cases hv

/-- The variables that a run from `pool` to `pool'` may touch. -/
def Scope (env : Env) (pool pool' : VarPool) (v : String) : Prop :=
  env.Free v ∨ pool'.isUsed v ∧ ¬ pool.isUsed v

namespace Scope

variable {env env' : Env} {pool pool₁ pool₂ : VarPool} {v : String}

theorem mono (h : env.Scope pool pool₁ v) (hkeeps : ∀ v, pool₁.isUsed v → pool₂.isUsed v) :
    env.Scope pool pool₂ v := by
  rcases h with hfree | ⟨hused, hunused⟩
  · exact .inl hfree
  · exact .inr ⟨hkeeps v hused, hunused⟩

/-- The scope of a later run, in an environment that the earlier steps have led to. -/
theorem of_later (h : env'.Scope pool₁ pool₂ v) (hkeeps : ∀ v, pool.isUsed v → pool₁.isUsed v)
    (hfree : ∀ v, env'.Free v → env.Scope pool pool₂ v) : env.Scope pool pool₂ v := by
  rcases h with hv | ⟨hused, hunused⟩
  · exact hfree v hv
  · exact .inr ⟨hused, fun hold => hunused (hkeeps v hold)⟩

end Scope

namespace Guarded

variable {env : Env} {pool pool' : VarPool} {s : Subst}

theorem scope_used (h : env.Guarded pool) (hkeeps : ∀ v, pool.isUsed v → pool'.isUsed v)
    {v : String} (hv : env.Scope pool pool' v) : pool'.isUsed v := by
  rcases hv with hfree | ⟨hused, -⟩
  · exact hkeeps v (h.used v hfree)
  · exact hused

/-- A run captures nothing in the schemes of its environment. -/
theorem avoids (h : env.Guarded pool) (hs : s.Within (env.Scope pool pool')) {name : String}
    {scheme : Scheme} (hlookup : env.lookup name = some scheme) : s.Avoids scheme := by
  intro v hv w hw hq
  rcases h.quantified name scheme hlookup with hclosed | hguard
  · exact hclosed v hv
  · obtain ⟨hused, hfree⟩ := hguard w hq
    rcases hs.image (.inl ⟨name, scheme, hlookup, hv⟩) hw with hw | ⟨-, hunused⟩
    · exact hfree hw
    · exact hunused hused

theorem scope_of_free_apply (hs : s.Within (env.Scope pool pool')) {v : String}
    (hv : (env.apply s).Free v) : env.Scope pool pool' v := by
  obtain ⟨u, hu, hv⟩ := free_apply hv
  exact hs.image (.inl hu) hv

theorem apply (h : env.Guarded pool) (hs : s.Within (env.Scope pool pool'))
    (hkeeps : ∀ v, pool.isUsed v → pool'.isUsed v) : (env.apply s).Guarded pool' where
  used v hv := h.scope_used hkeeps (scope_of_free_apply hs hv)
  quantified name scheme hlookup := by
    rw [lookup_apply, Option.map_eq_some_iff] at hlookup
    obtain ⟨scheme, hlookup, rfl⟩ := hlookup
    rcases h.quantified name scheme hlookup with hclosed | hguard
    · rw [Subst.applyScheme_of_closed s hclosed]
      exact .inl hclosed
    · refine .inr fun v hv => ?_
      obtain ⟨hused, hfree⟩ := hguard v hv
      refine ⟨hkeeps v hused, fun happly => ?_⟩
      rcases scope_of_free_apply hs happly with hv' | ⟨-, hunused⟩
      · exact hfree hv'
      · exact hunused hused

theorem erase (h : env.Guarded pool) (name : String) : (env.erase name).Guarded pool where
  used v hv := h.used v (free_erase hv)
  quantified name' scheme hlookup := by
    rw [lookup_erase] at hlookup
    split at hlookup
    next => cases hlookup
    next =>
      rcases h.quantified name' scheme hlookup with hclosed | hguard
      · exact .inl hclosed
      · exact .inr fun v hv => ⟨(hguard v hv).1, fun hfree => (hguard v hv).2 (free_erase hfree)⟩

/-- A parameter gets a fresh variable. -/
theorem insert_mono (h : env.Guarded pool) {fresh : String} (hissues : pool.Issues fresh pool')
    (name : String) : (env.insert name (.mono (.var fresh))).Guarded pool' where
  used v hv := by
    rw [hissues.isUsed_iff]
    rcases free_insert hv with hv | hv
    · exact .inl (Ty.mem_vars_var.1 (Scheme.free_mono.1 hv))
    · exact .inr (h.used v hv)
  quantified name' scheme hlookup := by
    rw [lookup_insert] at hlookup
    split at hlookup
    next =>
      obtain rfl := Option.some.inj hlookup
      exact .inr fun v hv => by cases hv
    next =>
      rcases h.quantified name' scheme hlookup with hclosed | hguard
      · exact .inl hclosed
      · refine .inr fun v hv => ?_
        obtain ⟨hused, hfree⟩ := hguard v hv
        refine ⟨hissues.keeps hused, fun hinsert => ?_⟩
        rcases free_insert hinsert with hv' | hv'
        · obtain rfl := Ty.mem_vars_var.1 (Scheme.free_mono.1 hv')
          exact hissues.ne_of_used hused rfl
        · exact hfree hv'

/-- A local definition gets its type, generalized. -/
theorem insert_generalize (h : env.Guarded pool) {t : Ty} (ht : ∀ v ∈ t.vars, pool.isUsed v)
    (name : String) : (env.insert name (env.generalize t)).Guarded pool := by
  have hfree : ∀ v, (env.insert name (env.generalize t)).Free v → env.Free v := by
    intro v hv
    rcases free_insert hv with hv | hv
    · exact (free_generalize.1 hv).2
    · exact hv
  refine ⟨fun v hv => h.used v (hfree v hv), fun name' scheme hlookup => ?_⟩
  rw [lookup_insert] at hlookup
  split at hlookup
  next =>
    obtain rfl := Option.some.inj hlookup
    refine .inr fun v hv => ?_
    obtain ⟨hmem, hnot⟩ := mem_vars_generalize.1 hv
    exact ⟨ht v hmem, fun hv' => hnot (hfree v hv')⟩
  next =>
    rcases h.quantified name' scheme hlookup with hclosed | hguard
    · exact .inl hclosed
    · exact .inr fun v hv => ⟨(hguard v hv).1, fun hv' => (hguard v hv).2 (hfree v hv')⟩

end Guarded

end Env

namespace Term

/-- Every literal has a type without variables. -/
def LitsGround : Term → Prop
  | .var _ _ => True
  | .lit t _ => t.vars = []
  | .app func arg _ => func.LitsGround ∧ arg.LitsGround
  | .lam _ body _ => body.LitsGround
  | .letIn _ bound body _ => bound.LitsGround ∧ body.LitsGround

/-- What a run does to the pool and to type variables. -/
structure Confined (env : Env) (pool : VarPool) (s : Subst) (t : Ty) (pool' : VarPool) :
    Prop where
  distinct : pool'.Distinct
  keeps : ∀ v, pool.isUsed v → pool'.isUsed v
  subst : s.Within (env.Scope pool pool')
  type : ∀ v ∈ t.vars, env.Scope pool pool' v

namespace Confined

variable {env : Env} {pool pool' : VarPool} {s : Subst} {t : Ty}

theorem type_used (h : Confined env pool s t pool') (hguard : env.Guarded pool) :
    ∀ v ∈ t.vars, pool'.isUsed v :=
  fun v hv => hguard.scope_used h.keeps (h.type v hv)

/-- The substitution of a run leads from variables in use to variables in use. -/
theorem image_used (h : Confined env pool s t pool') (hguard : env.Guarded pool) {v w : String}
    (hv : pool.isUsed v) (hw : w ∈ (s.image v).vars) : pool'.isUsed w := by
  rcases h.subst v with heq | ⟨-, himage⟩
  · rw [heq] at hw
    obtain rfl := Ty.mem_vars_var.1 hw
    exact h.keeps w hv
  · exact hguard.scope_used h.keeps (himage w hw)

theorem guarded_apply (h : Confined env pool s t pool') (hguard : env.Guarded pool) :
    (env.apply s).Guarded pool' :=
  hguard.apply h.subst h.keeps

theorem guarded_define (h : Confined env pool s t pool') (hguard : env.Guarded pool)
    (name : String) : (env.define name s t).Guarded pool' := by
  rw [Env.define, Env.apply_erase]
  exact ((h.guarded_apply hguard).erase name).insert_generalize (h.type_used hguard) name

end Confined

theorem Infers.confined {env : Env} {e : Term} {pool pool' : VarPool} {s : Subst} {t : Ty}
    (h : Infers env e pool s t pool') (hpool : pool.Distinct) (hguard : env.Guarded pool)
    (hlits : e.LitsGround) : Confined env pool s t pool' := by
  induction h with
  | @var env name scheme pool tag hlookup =>
      have hrenews := scheme.renewal_renews hpool
      refine ⟨hrenews.distinct, hrenews.keeps, .empty, fun w hw => ?_⟩
      rw [Scheme.instantiate_fst, Ty.mem_vars_bind] at hw
      obtain ⟨v, hv, hw⟩ := hw
      by_cases hq : v ∈ scheme.vars
      · obtain ⟨u, hu, hunused, hused⟩ := hrenews.fresh v hq
        rw [hu] at hw
        obtain rfl := Ty.mem_vars_var.1 hw
        exact .inr ⟨hused, by simp [hunused]⟩
      · rw [hrenews.away v hq] at hw
        obtain rfl := Ty.mem_vars_var.1 hw
        exact .inl ⟨name, scheme, hlookup, hv, hq⟩
  | lit t tag =>
      have hground : t.vars = [] := hlits
      exact ⟨hpool, fun _ => id, .empty, fun v hv => by simp [hground] at hv⟩
  | @lam env param body pool pool' s t tag hbody ih =>
      have hissues := VarPool.allocate_issues hpool
      have hrun := ih hissues.distinct (hguard.insert_mono hissues param) hlits
      -- the parameter's variable is new, and all else that the body sees was visible before
      have hparam : env.Scope pool pool' pool.allocate.1 :=
        .inr ⟨hrun.keeps _ hissues.used, by simp [hissues.fresh]⟩
      have hscope : ∀ v, (env.insert param (.mono (.var pool.allocate.1))).Scope
          pool.allocate.2 pool' v → env.Scope pool pool' v := by
        intro v hv
        refine hv.of_later (fun _ => hissues.keeps) fun w hw => ?_
        rcases Env.free_insert hw with hw | hw
        · obtain rfl := Ty.mem_vars_var.1 (Scheme.free_mono.1 hw)
          exact hparam
        · exact .inl hw
      have hsubst := hrun.subst.mono hscope
      refine ⟨hrun.distinct, fun v hv => hrun.keeps v (hissues.keeps hv), hsubst, fun v hv => ?_⟩
      rcases List.mem_append.1 hv with hv | hv
      · exact hsubst.image hparam hv
      · exact hscope v (hrun.type v hv)
  | @app env func arg pool pool₁ pool₂ s₁ s₂ s₃ t₁ t₂ tag hfunc harg hunify ihf iha =>
      have hrun₁ := ihf hpool hguard hlits.1
      have hrun₂ := iha hrun₁.distinct (hrun₁.guarded_apply hguard) hlits.2
      have hissues := VarPool.allocate_issues hrun₂.distinct
      have hkeeps₁ : ∀ v, pool₁.isUsed v → pool₂.allocate.2.isUsed v := fun v hv =>
        hissues.keeps (hrun₂.keeps v hv)
      -- both scopes lie in that of the whole: the argument sees what the function has left free
      have hscope₁ : ∀ v, env.Scope pool pool₁ v → env.Scope pool pool₂.allocate.2 v :=
        fun v hv => hv.mono hkeeps₁
      have hscope₂ : ∀ v, (env.apply s₁).Scope pool₁ pool₂ v →
          env.Scope pool pool₂.allocate.2 v := fun v hv =>
        (hv.mono fun _ => hissues.keeps).of_later hrun₁.keeps fun w hw =>
          hscope₁ w (Env.Guarded.scope_of_free_apply hrun₁.subst hw)
      have hresult : env.Scope pool pool₂.allocate.2 pool₂.allocate.1 :=
        .inr ⟨hissues.used, fun hused =>
          hissues.ne_of_used (hrun₂.keeps _ (hrun₁.keeps _ hused)) rfl⟩
      have hs₁ := hrun₁.subst.mono hscope₁
      have hs₂ := hrun₂.subst.mono hscope₂
      have hs₃ : s₃.Within (env.Scope pool pool₂.allocate.2) := by
        refine (unify_eliminates hunify).within fun v hv => ?_
        rcases List.mem_append.1 hv with hv | hv
        · exact hs₂.apply (fun u hu => hscope₁ u (hrun₁.type u hu)) v hv
        · rcases List.mem_append.1 hv with hv | hv
          · exact hscope₂ v (hrun₂.type v hv)
          · obtain rfl := Ty.mem_vars_var.1 hv
            exact hresult
      exact ⟨hissues.distinct, fun v hv => hkeeps₁ v (hrun₁.keeps v hv),
        hs₃.compose (hs₂.compose hs₁), fun v hv => hs₃.image hresult hv⟩
  | @letIn env name bound body pool pool₁ pool₂ s₁ s₂ t₁ t₂ tag hbound hbody ihb ihe =>
      have hrun₁ := ihb hpool hguard hlits.1
      have hrun₂ := ihe hrun₁.distinct (hrun₁.guarded_define hguard name) hlits.2
      have hscope₁ : ∀ v, env.Scope pool pool₁ v → env.Scope pool pool₂ v :=
        fun v hv => hv.mono hrun₂.keeps
      have hscope₂ : ∀ v, (env.define name s₁ t₁).Scope pool₁ pool₂ v →
          env.Scope pool pool₂ v := by
        intro v hv
        refine hv.of_later hrun₁.keeps fun w hw => ?_
        exact hscope₁ w (Env.Guarded.scope_of_free_apply hrun₁.subst (Env.free_define hw))
      exact ⟨hrun₂.distinct, fun v hv => hrun₂.keeps v (hrun₁.keeps v hv),
        (hrun₂.subst.mono hscope₂).compose (hrun₁.subst.mono hscope₁),
        fun v hv => hscope₂ v (hrun₂.type v hv)⟩

end Term

end Plugboard
