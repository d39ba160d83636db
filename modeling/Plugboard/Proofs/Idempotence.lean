import Plugboard.Proofs.InferenceScope
import Plugboard.Proofs.MostGeneral

/-!
# Substitutions that come one after the other

Each substitution that inference finds is about variables that the earlier ones have left alone.
So what a run composes is idempotent, and a substitution that absorbs the composite absorbs each
part of it: a type that was noted along the way is the same whether it goes through the rest of
the run or through the final substitution at once.
-/

namespace Plugboard

namespace Subst

/-- What is put in for a variable is not replaced again. -/
def Idempotent (s : Subst) : Prop := ∀ v, ∀ w ∈ (s.image v).vars, s.image w = .var w

/-- The substitution does not move the variables of a scope. -/
def Fixes (s : Subst) (scope : String → Prop) : Prop := ∀ v, scope v → s.image v = .var v

/-- It makes no difference to apply `s` first. -/
def Absorbs (r s : Subst) : Prop := ∀ v, r.apply (s.image v) = r.image v

/-- The second substitution is about variables that the first one has left alone. -/
def Follows (second first : Subst) : Prop :=
  ∃ scope : String → Prop, second.Within scope ∧ first.Fixes scope

variable {r s second first : Subst}

theorem apply_of_fixes {scope : String → Prop} (h : s.Fixes scope) {t : Ty}
    (ht : ∀ v ∈ t.vars, scope v) : s.apply t = t :=
  (Ty.bind_congr fun v hv => h v (ht v hv)).trans (Ty.bind_var t)

theorem idempotent_empty : empty.Idempotent := fun _ w _ => image_empty w

theorem Eliminates.idempotent {scope : List String} (h : s.Eliminates scope) : s.Idempotent :=
  fun v w hw => image_of_not_mem fun hmem => h.removes w v hmem hw

theorem Idempotent.fixes_apply (h : s.Idempotent) {t : Ty} : s.Fixes (· ∈ (s.apply t).vars) := by
  intro w hw
  obtain ⟨v, -, hv⟩ := mem_vars_apply.1 hw
  exact h v w hv

theorem Idempotent.absorbs (h : s.Idempotent) : s.Absorbs s := fun v =>
  apply_of_fixes (fun w hw => h v w hw) fun _ => id

namespace Follows

/-- Variables that both leave alone, or that the first one puts in, are left alone by both. -/
theorem idempotent (h : second.Follows first) (hsecond : second.Idempotent)
    (hfirst : first.Idempotent) : (second.compose first).Idempotent := by
  obtain ⟨scope, hwithin, hfixes⟩ := h
  intro v w hw
  rw [image_compose] at hw ⊢
  obtain ⟨u, hu, hw⟩ := mem_vars_apply.1 hw
  have hfix : first.image w = .var w ∧ second.image w = .var w := by
    rcases hwithin u with hsame | ⟨-, hscope⟩
    · rw [hsame] at hw
      obtain rfl := Ty.mem_vars_var.1 hw
      exact ⟨hfirst v w hu, hsame⟩
    · exact ⟨hfixes w (hscope w hw), hsecond u w hw⟩
  rw [hfix.1]
  exact hfix.2

theorem absorbs (h : second.Follows first) (hfirst : first.Idempotent)
    (hr : r.Absorbs (second.compose first)) : r.Absorbs first ∧ r.Absorbs second := by
  obtain ⟨scope, hwithin, hfixes⟩ := h
  have hr : ∀ v, r.apply (second.apply (first.image v)) = r.image v := fun v => by
    rw [← image_compose]
    exact hr v
  have hfixed : ∀ w, first.image w = .var w → r.apply (second.image w) = r.image w :=
    fun w hw => by
      have hrw := hr w
      rwa [hw] at hrw
  constructor
  · intro v
    rw [← hr v]
    change (first.image v).bind r.image = ((first.image v).bind second.image).bind r.image
    rw [Ty.bind_bind]
    exact Ty.bind_congr fun w hw => (hfixed w (hfirst v w hw)).symm
  · intro v
    rcases hwithin v with hsame | ⟨hv, -⟩
    · rw [hsame]
      rfl
    · exact hfixed v (hfixes v hv)

end Follows

theorem Absorbs.apply (h : r.Absorbs s) (t : Ty) : r.apply (s.apply t) = r.apply t := by
  change (t.bind s.image).bind r.image = _
  rw [Ty.bind_bind]
  exact Ty.bind_congr fun v _ => h v

/-- A unifier follows what has been applied to the types that it unifies. -/
theorem follows_unify {a b : Ty} (hunify : unify a b = .ok s)
    (hfixes : first.Fixes fun v => v ∈ a.vars ∨ v ∈ b.vars) : s.Follows first :=
  ⟨_, (unify_eliminates hunify).within fun _ => List.mem_append.1, hfixes⟩

/-- The unifier of an application has made the function's type one that takes the argument. -/
theorem apply_eq_fn_of_unify {s₂ s₃ r : Subst} {t₁ t₂ : Ty} {v : String}
    (hunify : unify (s₂.apply t₁) (.fn t₂ (.var v)) = .ok s₃) (hr₂ : r.Absorbs s₂)
    (hr₃ : r.Absorbs s₃) : r.apply t₁ = .fn (r.apply t₂) (r.apply (s₃.image v)) := by
  rw [← hr₂.apply t₁, ← hr₃.apply, unify_apply_eq hunify, hr₃.apply, hr₃]
  rfl

end Subst

namespace Term

open Subst

variable {env env' : Env} {e : Term} {pool pool₁ pool₂ : VarPool} {s s₁ s₂ s₃ : Subst}
  {t t₁ t₂ : Ty}

/-- What a run has replaced is out of the scope of later runs. -/
theorem Confined.fixes_later (h : Confined env pool s t pool₁) (hguard : env.Guarded pool)
    (hs : s.Idempotent) (hfree : ∀ v, env'.Free v → (env.apply s).Free v) :
    s.Fixes (env'.Scope pool₁ pool₂) := by
  rintro v (hv | ⟨-, hunused⟩)
  · obtain ⟨u, -, hu⟩ := Env.free_apply (hfree v hv)
    exact hs u v hu
  · exact h.subst.image_eq fun hscope => hunused (hguard.scope_used h.keeps hscope)

/-- A fresh variable is not replaced by what two runs have found before it. -/
theorem Confined.image_fresh (h₁ : Confined env pool s₁ t₁ pool₁) (hguard : env.Guarded pool)
    (h₂ : Confined (env.apply s₁) pool₁ s₂ t₂ pool₂) :
    (s₂.compose s₁).image pool₂.allocate.1 = .var pool₂.allocate.1 := by
  have hissues := VarPool.allocate_issues h₂.distinct
  have hfirst : s₁.image pool₂.allocate.1 = .var pool₂.allocate.1 :=
    h₁.subst.image_eq fun hscope =>
      hissues.ne_of_used (h₂.keeps _ (hguard.scope_used h₁.keeps hscope)) rfl
  rw [image_compose, hfirst]
  exact h₂.subst.image_eq fun hscope =>
    hissues.ne_of_used ((h₁.guarded_apply hguard).scope_used h₂.keeps hscope) rfl

/-- How the parts of an application follow each other. -/
theorem follows_app {func arg : Term} (hpool : pool.Distinct) (hguard : env.Guarded pool)
    (hlits : func.LitsGround ∧ arg.LitsGround) (hfunc : Infers env func pool s₁ t₁ pool₁)
    (harg : Infers (env.apply s₁) arg pool₁ s₂ t₂ pool₂)
    (hunify : unify (s₂.apply t₁) (.fn t₂ (.var pool₂.allocate.1)) = .ok s₃)
    (hs₁ : s₁.Idempotent) (ht₁ : s₁.Fixes (· ∈ t₁.vars)) (hs₂ : s₂.Idempotent)
    (ht₂ : s₂.Fixes (· ∈ t₂.vars)) :
    s₂.Follows s₁ ∧ s₃.Follows (s₂.compose s₁) := by
  have hrun₁ := hfunc.confined hpool hguard hlits.1
  have hguard₁ := hrun₁.guarded_apply hguard
  have hrun₂ := harg.confined hrun₁.distinct hguard₁ hlits.2
  have hfixes : s₁.Fixes ((env.apply s₁).Scope pool₁ pool₂) :=
    hrun₁.fixes_later hguard hs₁ fun _ => id
  have hfollows : s₂.Follows s₁ := ⟨_, hrun₂.subst, hfixes⟩
  refine ⟨hfollows, follows_unify hunify ?_⟩
  have hcompose := hfollows.idempotent hs₂ hs₁
  rintro v (hv | hv)
  · rw [← apply_of_fixes ht₁ fun _ => id, ← apply_compose] at hv
    exact hcompose.fixes_apply v hv
  · rcases List.mem_append.1 hv with hv | hv
    · rw [image_compose, hfixes v (hrun₂.type v hv)]
      exact ht₂ v hv
    · obtain rfl := Ty.mem_vars_var.1 hv
      exact hrun₁.image_fresh hguard hrun₂

theorem follows_letIn {name : String} {bound body : Term} (hpool : pool.Distinct)
    (hguard : env.Guarded pool) (hlits : bound.LitsGround ∧ body.LitsGround)
    (hbound : Infers env bound pool s₁ t₁ pool₁)
    (hbody : Infers (env.define name s₁ t₁) body pool₁ s₂ t₂ pool₂) (hs₁ : s₁.Idempotent) :
    s₂.Follows s₁ := by
  have hrun₁ := hbound.confined hpool hguard hlits.1
  have hrun₂ := hbody.confined hrun₁.distinct (hrun₁.guarded_define hguard name) hlits.2
  exact ⟨_, hrun₂.subst, hrun₁.fixes_later hguard hs₁ fun _ => Env.free_define⟩

/-- A run answers an idempotent substitution, and a type to which it has been applied. -/
theorem Infers.idempotent (h : Infers env e pool s t pool₁) (hpool : pool.Distinct)
    (hguard : env.Guarded pool) (hlits : e.LitsGround) :
    s.Idempotent ∧ s.Fixes (· ∈ t.vars) := by
  induction h with
  | var tag hlookup => exact ⟨idempotent_empty, fun v _ => image_empty v⟩
  | lit t tag => exact ⟨idempotent_empty, fun v _ => image_empty v⟩
  | @lam env param body pool pool' s t tag hbody ih =>
      have hissues := VarPool.allocate_issues hpool
      obtain ⟨hs, ht⟩ := ih hissues.distinct (hguard.insert_mono hissues param) hlits
      refine ⟨hs, fun v hv => ?_⟩
      rcases List.mem_append.1 hv with hv | hv
      · exact hs _ v hv
      · exact ht v hv
  | @app env func arg pool pool₁ pool₂ s₁ s₂ s₃ t₁ t₂ tag hfunc harg hunify ihf iha =>
      have hrun₁ := hfunc.confined hpool hguard hlits.1
      obtain ⟨hs₁, ht₁⟩ := ihf hpool hguard hlits.1
      obtain ⟨hs₂, ht₂⟩ := iha hrun₁.distinct (hrun₁.guarded_apply hguard) hlits.2
      obtain ⟨hfollows, hfollows'⟩ :=
        follows_app hpool hguard hlits hfunc harg hunify hs₁ ht₁ hs₂ ht₂
      have hs₃ := (unify_eliminates hunify).idempotent
      have hs := hfollows'.idempotent hs₃ (hfollows.idempotent hs₂ hs₁)
      obtain ⟨scope, hwithin, hfixes⟩ := hfollows'
      refine ⟨hs, fun v hv => ?_⟩
      -- what is put in for the fresh variable was not replaced before
      have hsame : (s₂.compose s₁).image v = .var v := by
        rcases hwithin pool₂.allocate.1 with hsame | ⟨hscope, hintroduced⟩
        · rw [hsame] at hv
          obtain rfl := Ty.mem_vars_var.1 hv
          have hrun₂ := harg.confined hrun₁.distinct (hrun₁.guarded_apply hguard) hlits.2
          exact hrun₁.image_fresh hguard hrun₂
        · exact hfixes v (hintroduced v hv)
      rw [image_compose, hsame]
      exact hs₃ _ v hv
  | @letIn env name bound body pool pool₁ pool₂ s₁ s₂ t₁ t₂ tag hbound hbody ihb ihe =>
      have hrun₁ := hbound.confined hpool hguard hlits.1
      have hguard₁ := hrun₁.guarded_define hguard name
      have hrun₂ := hbody.confined hrun₁.distinct hguard₁ hlits.2
      obtain ⟨hs₁, -⟩ := ihb hpool hguard hlits.1
      obtain ⟨hs₂, ht₂⟩ := ihe hrun₁.distinct hguard₁ hlits.2
      have hfollows := follows_letIn hpool hguard hlits hbound hbody hs₁
      refine ⟨hfollows.idempotent hs₂ hs₁, fun v hv => ?_⟩
      have hfixes : s₁.Fixes ((env.define name s₁ t₁).Scope pool₁ pool₂) :=
        hrun₁.fixes_later hguard hs₁ fun _ => Env.free_define
      rw [image_compose, hfixes v (hrun₂.type v hv)]
      exact ht₂ v hv

end Term

end Plugboard
