import Plugboard.Graph.Annotate
import Plugboard.Proofs.Allocation
import Plugboard.Proofs.TwoRuns
import Plugboard.Proofs.Unifiers

/-!
# Names do not matter to unification

Under a permutation of all names, what is unified, substituted and taken apart is renamed, and
so are the errors.
-/

namespace Plugboard

open Equiv

variable {π : Perm String}

namespace Ty

@[simp]
theorem rename_var (f : String → String) (v : String) : (var v).rename f = .var (f v) := rfl

@[simp]
theorem rename_fn (f : String → String) (t u : Ty) :
    (fn t u).rename f = .fn (t.rename f) (u.rename f) := rfl

@[simp]
theorem rename_con (f : String → String) (c : String) (ts : List Ty) :
    (con c ts).rename f = .con c (ts.map (rename f)) :=
  congrArg (con c) (bindAll_eq_map _ ts)

theorem rename_congr {f g : String → String} {t : Ty} (h : ∀ v ∈ t.vars, f v = g v) :
    t.rename f = t.rename g :=
  bind_congr fun v hv => congrArg var (h v hv)

theorem rename_of_ground {f : String → String} {t : Ty} (h : t.vars = []) : t.rename f = t := by
  refine (bind_congr fun v hv => ?_).trans (bind_var t)
  rw [h] at hv
  exact (List.not_mem_nil hv).elim

theorem rename_bind (f : String → String) (g : String → Ty) (t : Ty) :
    (t.bind g).rename f = t.bind fun v => (g v).rename f :=
  bind_bind ..

theorem bind_rename (f : String → String) (g : String → Ty) (t : Ty) :
    (t.rename f).bind g = t.bind fun v => g (f v) :=
  bind_bind ..

theorem rename_rename (f g : String → String) (t : Ty) :
    (t.rename f).rename g = t.rename (g ∘ f) :=
  bind_rename f _ t

theorem mem_vars_rename {f : String → String} {t : Ty} {v : String} :
    v ∈ (t.rename f).vars ↔ ∃ w ∈ t.vars, v = f w := by
  rw [rename, mem_vars_bind]
  simp only [mem_vars_var]

theorem apply_mem_vars_rename {t : Ty} {v : String} : π v ∈ (t.rename π).vars ↔ v ∈ t.vars := by
  rw [mem_vars_rename]
  constructor
  · rintro ⟨w, hw, heq⟩
    rwa [π.injective heq]
  · exact fun hv => ⟨v, hv, rfl⟩

theorem rename_injective : Function.Injective (rename π) := by
  intro t u h
  have hback : ∀ t : Ty, (t.rename π).rename π.symm = t := fun t => by
    rw [rename, bind_rename]
    simpa using bind_var t
  rw [← hback t, h, hback]

@[simp]
theorem rename_inj {t u : Ty} : t.rename π = u.rename π ↔ t = u := rename_injective.eq_iff

@[simp]
theorem isVar_rename (f : String → String) (t : Ty) : (t.rename f).isVar = t.isVar := by
  cases t with
  | con c ts => rw [rename_con]; rfl
  | _ => rfl

theorem uncurry_rename (f : String → String) (limit : Nat) (t : Ty) :
    (t.rename f).uncurry limit =
      ((t.uncurry limit).1.map (rename f), (t.uncurry limit).2.rename f) := by
  induction limit generalizing t with
  | zero => rfl
  | succ limit ih =>
      cases t with
      | var v => rfl
      | con c ts => rw [rename_con]; simp [uncurry]
      | fn a r => simp [uncurry, ih]

end Ty

/-- What is wrong with two types, once they are renamed. -/
def UnifyError.rename (f : String → String) : UnifyError → UnifyError
  | .mismatch left right => .mismatch (left.rename f) (right.rename f)
  | .occurs name ty => .occurs (f name) (ty.rename f)
  | .arity left right => .arity (left.rename f) (right.rename f)

namespace Subst

/-- The second substitution does to renamed types what the first one does to types. -/
def Renamed (π : Perm String) (s s' : Subst) : Prop :=
  ∀ v, s'.image (π v) = (s.image v).rename π

namespace Renamed

variable {s s' r r' : Subst}

theorem apply (h : Renamed π s s') (t : Ty) : s'.apply (t.rename π) = (s.apply t).rename π := by
  rw [Subst.apply, Subst.apply, Ty.bind_rename, Ty.rename_bind]
  exact Ty.bind_congr fun v _ => h v

theorem map_apply (h : Renamed π s s') (ts : List Ty) :
    (ts.map (Ty.rename π)).map s'.apply = (ts.map s.apply).map (Ty.rename π) := by
  simp only [List.map_map]
  exact List.map_congr_left fun t _ => h.apply t

theorem empty : Renamed π .empty .empty := fun v => by simp

theorem single (v : String) (t : Ty) : Renamed π (.single v t) (.single (π v) (t.rename π)) := by
  intro w
  rw [image_single, image_single]
  by_cases h : v = w <;> simp [h]

theorem compose (hr : Renamed π r r') (hs : Renamed π s s') :
    Renamed π (r.compose s) (r'.compose s') := by
  intro v
  rw [image_compose, image_compose, hs v, hr.apply]

theorem without (hs : Renamed π s s') {names names' : List String}
    (hnames : ∀ v, π v ∈ names' ↔ v ∈ names) :
    Renamed π (s.without names) (s'.without names') := by
  intro v
  rw [image_without, image_without, hs v]
  by_cases hv : v ∈ names <;> simp [hnames, hv]

end Renamed

end Subst

/-- Unification of renamed types. -/
def UnifiesRenamed (π : Perm String) :
    Except UnifyError Subst → Except UnifyError Subst → Prop :=
  Outcomes (Subst.Renamed π) fun e e' => e' = e.rename π

theorem unifiesRenamed_var (v : String) (t : Ty) :
    UnifiesRenamed π (if v ∈ t.vars then .error (.occurs v t) else .ok (.single v t))
      (if π v ∈ (t.rename π).vars then .error (.occurs (π v) (t.rename π))
        else .ok (.single (π v) (t.rename π))) := by
  by_cases hv : v ∈ t.vars
  · rw [if_pos hv, if_pos (Ty.apply_mem_vars_rename.2 hv)]
    exact .error rfl
  · rw [if_neg hv, if_neg fun h => hv (Ty.apply_mem_vars_rename.1 h)]
    exact .ok (.single v t)

theorem unify_rename_and_unifyAll_rename :
    (∀ a b : Ty, UnifiesRenamed π (unify a b) (unify (a.rename π) (b.rename π))) ∧
      ∀ ts us : List Ty, UnifiesRenamed π (unifyAll ts us)
        (unifyAll (ts.map (Ty.rename π)) (us.map (Ty.rename π))) := by
  refine unify_induction ?_ ?_ ?_ ?_ ?_ ?_ ?_ ?_ ?_
  · intro v t
    have hiff : t.rename π = .var (π v) ↔ t = .var v := Ty.rename_inj (u := .var v)
    rw [Ty.rename_var, unify_var_left, unify_var_left]
    by_cases ht : t = .var v
    · rw [if_pos ht, if_pos (hiff.2 ht)]
      exact .ok .empty
    · rw [if_neg ht, if_neg fun h => ht (hiff.1 h)]
      exact unifiesRenamed_var v t
  · intro t v ht
    rw [Ty.rename_var, unify_var_right _ _ ht, unify_var_right _ _ (by simpa using ht)]
    exact unifiesRenamed_var v t
  · intro a r b q ih
    rw [Ty.rename_fn, Ty.rename_fn, unify_fn, unify_fn]
    exact ih
  · intro c ts d us ih
    rw [Ty.rename_con, Ty.rename_con, unify_con, unify_con, List.length_map, List.length_map,
      ← Ty.rename_con, ← Ty.rename_con]
    by_cases hc : c = d
    · by_cases hlen : ts.length = us.length
      · simpa only [hc, hlen, ne_eq, not_true_eq_false, if_false] using ih hc hlen
      · simp only [hc, hlen, ne_eq, not_true_eq_false, not_false_eq_true, if_false, if_true]
        exact .error rfl
    · simp only [hc, ne_eq, not_false_eq_true, if_true]
      exact .error rfl
  · intro c ts a r
    rw [Ty.rename_con, Ty.rename_fn, unify_con_fn, unify_con_fn, ← Ty.rename_con, ← Ty.rename_fn]
    exact .error rfl
  · intro a r c ts
    rw [Ty.rename_con, Ty.rename_fn, unify_fn_con, unify_fn_con, ← Ty.rename_con, ← Ty.rename_fn]
    exact .error rfl
  · intro us
    rw [List.map_nil, unifyAll_nil_left, unifyAll_nil_left]
    exact .ok .empty
  · intro ts
    rw [List.map_nil, unifyAll_nil_right, unifyAll_nil_right]
    exact .ok .empty
  · intro t ts u us hhead htail
    rw [List.map_cons, List.map_cons, unifyAll_cons, unifyAll_cons]
    generalize hfirst : unify t u = outcome at hhead
    generalize unify (t.rename π) (u.rename π) = outcome' at hhead
    cases hhead with
    | error he => exact .error he
    | @ok first first' h =>
        have hrest := htail first hfirst
        rw [← h.map_apply, ← h.map_apply] at hrest
        exact hrest.bind fun second second' hsecond => .ok (hsecond.compose h)

theorem unify_rename (π : Perm String) (a b : Ty) :
    UnifiesRenamed π (unify a b) (unify (a.rename π) (b.rename π)) :=
  unify_rename_and_unifyAll_rename.1 a b

theorem Subst.Renamed.reconcile {s s' : Subst} (h : Renamed π s s') (a b : Ty) :
    Renamed π (s.reconcile a b) (s'.reconcile (a.rename π) (b.rename π)) := by
  have hunify := unify_rename π (s.apply a) (s.apply b)
  rw [Subst.reconcile, Subst.reconcile, h.apply, h.apply]
  generalize unify (s.apply a) (s.apply b) = outcome at hunify ⊢
  generalize unify ((s.apply a).rename π) ((s.apply b).rename π) = outcome' at hunify ⊢
  cases hunify with
  | ok hu => exact hu.compose h
  | error => exact h

/-- A permutation can be changed so that it takes new names to given ones, and only names that
are or become one of these notice. -/
theorem exists_perm_agreeing {pairs : List (String × String)} (hfst : (pairs.map Prod.fst).Nodup)
    (hsnd : (pairs.map Prod.snd).Nodup) (π : Perm String) :
    ∃ ρ : Perm String, (∀ p ∈ pairs, ρ p.1 = p.2) ∧
      ∀ v, v ∉ pairs.map Prod.fst → π v ∉ pairs.map Prod.snd → ρ v = π v := by
  induction pairs generalizing π with
  | nil => exact ⟨π, fun p hp => (List.not_mem_nil hp).elim, fun _ _ _ => rfl⟩
  | cons p pairs ih =>
      rw [List.map_cons, List.nodup_cons] at hfst hsnd
      obtain ⟨ρ, hpairs, hρ⟩ := ih hfst.2 hsnd.2 (swap (π p.1) p.2 * π)
      refine ⟨ρ, List.forall_mem_cons.2 ⟨?_, hpairs⟩, fun v hv hv' => ?_⟩
      · rw [hρ p.1 hfst.1] <;> simp [hsnd.1]
      · rw [List.map_cons, List.mem_cons, not_or] at hv hv'
        have hsame : (swap (π p.1) p.2 * π) v = π v := by
          rw [Perm.mul_apply]
          exact swap_apply_of_ne_of_ne (fun h => hv.1 (π.injective h)) hv'.1
        rw [hρ v hv.2 (hsame ▸ hv'.2), hsame]

end Plugboard
