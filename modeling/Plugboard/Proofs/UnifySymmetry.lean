import Plugboard.Proofs.Equivariance

/-!
# Unification in both directions

Of two variables the left one is bound, so unifying two types and unifying them the other way
round need not give the same substitution, and from then on the two runs work on different types.
They differ by a permutation of the variables, which is carried along: what the one direction
returns, the other returns renamed, and where the one fails, the other fails at the same place, for
the same reason, with the two types in each other's place.
-/

namespace Plugboard

open Equiv

/-- What is wrong with two types that have changed places. -/
def UnifyError.flip : UnifyError → UnifyError
  | .mismatch left right => .mismatch right left
  | .occurs name ty => .occurs name ty
  | .arity left right => .arity right left

theorem Ty.rename_one (t : Ty) : t.rename (1 : Perm String) = t := Ty.bind_var t

namespace UnifyError

theorem rename_rename (f g : String → String) (e : UnifyError) :
    (e.rename f).rename g = e.rename (g ∘ f) := by
  cases e <;> simp only [rename, Ty.rename_rename, Function.comp]

theorem rename_one (e : UnifyError) : e.rename (1 : Perm String) = e := by
  cases e <;> simp only [rename, Ty.rename_one, Perm.one_apply]

end UnifyError

/-- The outcomes of one problem in both directions: they differ by a permutation of the variables
in a scope. -/
def Mirrors (scope : List String) (outcome outcome' : Except UnifyError Subst) : Prop :=
  ∃ π : Perm String, (∀ v ∉ scope, π v = v) ∧
    Outcomes (fun s s' => ∀ t, s'.apply t = (s.apply t).rename π)
      (fun e e' => e' = e.flip.rename π) outcome outcome'

namespace Mirrors

variable {scope : List String}

/-- Nothing has to be renamed. -/
theorem ok (s : Subst) : Mirrors scope (.ok s) (.ok s) :=
  ⟨1, fun _ _ => rfl, .ok fun _ => (Ty.bind_var _).symm⟩

theorem error (e : UnifyError) : Mirrors scope (.error e) (.error e.flip) :=
  ⟨1, fun _ _ => rfl, .error e.flip.rename_one.symm⟩

/-- Whichever side it is on, a variable is bound to a type that is none. -/
theorem bound (v : String) (t : Ty) :
    Mirrors scope (if v ∈ t.vars then .error (.occurs v t) else .ok (.single v t))
      (if v ∈ t.vars then .error (.occurs v t) else .ok (.single v t)) := by
  split
  · exact error (.occurs v t)
  · exact ok (.single v t)

/-- Each variable is bound to the other one. -/
theorem single (v w : String) :
    Mirrors [v, w] (.ok (.single v (.var w))) (.ok (.single w (.var v))) := by
  refine ⟨swap v w, fun u hu => ?_, .ok fun t => ?_⟩
  · simp only [List.mem_cons, List.not_mem_nil, or_false, not_or] at hu
    exact swap_apply_of_ne_of_ne hu.1 hu.2
  · rw [Subst.apply, Subst.apply, Ty.rename_bind]
    refine Ty.bind_congr fun u _ => ?_
    rw [Subst.image_single, Subst.image_single]
    by_cases hu : v = u
    · subst hu
      by_cases hw : w = v <;> simp [hw]
    · rw [if_neg hu]
      by_cases hw : w = u
      · simp [hw]
      · simp [hw, swap_apply_of_ne_of_ne (Ne.symm hu) (Ne.symm hw)]

theorem mono {large : List String} {outcome outcome' : Except UnifyError Subst}
    (h : Mirrors scope outcome outcome') (hsub : scope ⊆ large) : Mirrors large outcome outcome' :=
  let ⟨π, hfix, hout⟩ := h
  ⟨π, fun v hv => hfix v fun hmem => hv (hsub hmem), hout⟩

/-- The second direction is the first one, mirrored and then renamed by what the heads need. -/
theorem compose {large : List String} {first first' : Subst} {π : Perm String}
    (hπ : ∀ v ∉ large, π v = v) (hsub : scope ⊆ large)
    (hfirst : ∀ t, first'.apply t = (first.apply t).rename π)
    {outcome mirrored renamed : Except UnifyError Subst} (h : Mirrors scope outcome mirrored)
    (hrenamed : UnifiesRenamed π mirrored renamed) :
    Mirrors large (outcome.map (·.compose first)) (renamed.map (·.compose first')) := by
  obtain ⟨ρ, hρ, hout⟩ := h
  refine ⟨π * ρ, fun v hv => ?_, ?_⟩
  · rw [Perm.mul_apply, hρ v fun hmem => hv (hsub hmem), hπ v hv]
  · cases hout with
    | @ok second mirror hmirror =>
        cases hrenamed with
        | @ok _ second' hsecond =>
            refine .ok fun t => ?_
            calc (second'.compose first').apply t
                = second'.apply ((first.apply t).rename π) := by rw [Subst.apply_compose, hfirst]
              _ = ((second.apply (first.apply t)).rename ρ).rename π := by
                  rw [hsecond.apply, hmirror]
              _ = ((second.compose first).apply t).rename (π * ρ) := by
                  rw [Subst.apply_compose, Ty.rename_rename, Perm.coe_mul]
    | error hmirror =>
        cases hrenamed with
        | error hsecond =>
            refine .error ?_
            rw [hsecond, hmirror, UnifyError.rename_rename, Perm.coe_mul]

/-- Heads first: what is left of the tails is renamed in the second direction. -/
theorem cons {t u : Ty} {ts us : List Ty}
    (hhead : Mirrors (t.vars ++ u.vars) (unify t u) (unify u t))
    (htail : ∀ first, unify t u = .ok first →
      Mirrors (Ty.varsAll (ts.map first.apply) ++ Ty.varsAll (us.map first.apply))
        (unifyAll (ts.map first.apply) (us.map first.apply))
        (unifyAll (us.map first.apply) (ts.map first.apply))) :
    Mirrors (Ty.varsAll (t :: ts) ++ Ty.varsAll (u :: us)) (unifyAll (t :: ts) (u :: us))
      (unifyAll (u :: us) (t :: ts)) := by
  obtain ⟨π, hπ, hfirst⟩ := hhead.mono (append_subset_varsAll_cons t u ts us)
  rw [unifyAll_cons, unifyAll_cons]
  generalize hunify : unify t u = outcome at hfirst
  generalize unify u t = outcome' at hfirst
  cases hfirst with
  | error he => exact ⟨π, hπ, .error he⟩
  | @ok first first' hsame =>
      have hmap : ∀ xs : List Ty, xs.map first'.apply = (xs.map first.apply).map (Ty.rename π) := by
        intro xs
        rw [List.map_map]
        exact List.map_congr_left fun x _ => hsame x
      have hscope : Ty.varsAll (ts.map first.apply) ++ Ty.varsAll (us.map first.apply) ⊆
          Ty.varsAll (t :: ts) ++ Ty.varsAll (u :: us) := by
        have heliminates := (unify_eliminates hunify).mono (append_subset_varsAll_cons t u ts us)
        refine List.append_subset.2 ⟨Subst.varsAll_map_apply_subset heliminates fun v hv => ?_,
          Subst.varsAll_map_apply_subset heliminates fun v hv => ?_⟩ <;> simp [Ty.varsAll, hv]
      have hrenamed := (unify_rename_and_unifyAll_rename (π := π)).2
        (us.map first.apply) (ts.map first.apply)
      rw [← hmap, ← hmap] at hrenamed
      exact compose hπ hscope hsame (htail first hunify) hrenamed

end Mirrors

theorem unify_mirrors_and_unifyAll_mirrors :
    (∀ a b : Ty, Mirrors (a.vars ++ b.vars) (unify a b) (unify b a)) ∧
      ∀ ts us : List Ty, Mirrors (Ty.varsAll ts ++ Ty.varsAll us) (unifyAll ts us)
        (unifyAll us ts) := by
  apply unify_induction
  case var_left =>
    intro v t
    cases ht : t.isVar with
    | false =>
        have hne : t ≠ .var v := fun h => by simp [h, Ty.isVar] at ht
        rw [unify_var_left, if_neg hne, unify_var_right v t ht]
        exact .bound v t
    | true =>
        obtain ⟨w, rfl⟩ : ∃ w, t = .var w := by
          cases t with
          | var w => exact ⟨w, rfl⟩
          | con | fn => cases ht
        rw [unify_var_left, unify_var_left]
        by_cases hvw : v = w
        · subst hvw
          simpa using Mirrors.ok .empty
        · simpa [hvw, Ne.symm hvw, Ty.vars] using Mirrors.single v w
  case var_right =>
    intro t v ht
    have hne : t ≠ .var v := fun h => by simp [h, Ty.isVar] at ht
    rw [unify_var_left, if_neg hne, unify_var_right v t ht]
    exact .bound v t
  case fn =>
    intro a r b q ih
    rw [unify_fn, unify_fn]
    simpa [Ty.vars, Ty.varsAll] using ih
  case con =>
    intro c ts d us ih
    rw [unify_con, unify_con]
    by_cases hc : c = d
    · by_cases hl : ts.length = us.length
      · simpa only [hc, hl, Ty.vars, ne_eq, not_true_eq_false, if_false] using ih hc hl
      · rw [if_neg (by simp [hc]), if_pos hl, if_neg (by simp [hc]), if_pos (Ne.symm hl)]
        exact .error (.arity (.con c ts) (.con d us))
    · rw [if_pos hc, if_pos (Ne.symm hc)]
      exact .error (.mismatch (.con c ts) (.con d us))
  case con_fn =>
    intro c ts a r
    rw [unify_con_fn, unify_fn_con]
    exact .error (.mismatch (.con c ts) (.fn a r))
  case fn_con =>
    intro a r c ts
    rw [unify_con_fn, unify_fn_con]
    exact .error (.mismatch (.fn a r) (.con c ts))
  case nil_left =>
    intro us
    rw [unifyAll_nil_left, unifyAll_nil_right]
    exact .ok .empty
  case nil_right =>
    intro ts
    rw [unifyAll_nil_left, unifyAll_nil_right]
    exact .ok .empty
  case cons =>
    intro t ts u us hhead htail
    exact hhead.cons htail

/-- Unification does not depend on the direction but for the names of variables. Both directions
succeed, with substitutions that differ by one permutation of the variables of the two types, or
both fail for the same reason, with the types in each other's place up to such a permutation. -/
theorem unify_symmetric (a b : Ty) : ∃ π : Perm String, (∀ v ∉ a.vars ++ b.vars, π v = v) ∧
    match unify a b, unify b a with
    | .ok s, .ok s' => ∀ t, s'.apply t = (s.apply t).rename π
    | .error (.mismatch left right), .error e =>
        e = .mismatch (right.rename π) (left.rename π)
    | .error (.arity left right), .error e => e = .arity (right.rename π) (left.rename π)
    | .error (.occurs v t), .error e => e = .occurs (π v) (t.rename π)
    | _, _ => False := by
  obtain ⟨π, hfix, hout⟩ := unify_mirrors_and_unifyAll_mirrors.1 a b
  refine ⟨π, hfix, ?_⟩
  generalize unify a b = outcome at hout ⊢
  generalize unify b a = outcome' at hout ⊢
  cases hout with
  | ok h => exact h
  | @error e _ h => cases e <;> exact h

end Plugboard
