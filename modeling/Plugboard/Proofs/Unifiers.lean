import Mathlib.Algebra.Group.End
import Mathlib.Data.Fintype.Sum
import Plugboard.Graph.Annotate
import Plugboard.Proofs.MostGeneral

/-!
# Systems of equations

Equations of types can be settled one after the other: each is unified under what the ones
before it need. Two substitutions that settle the same problem differ by the names of variables
only, in whatever order the equations were taken.
-/

namespace Plugboard

open Equiv

/-- The map solves all equations of a system. -/
def Solves (equations : List (Ty × Ty)) (r : String → Ty) : Prop :=
  ∀ e ∈ equations, e.1.bind r = e.2.bind r

namespace Ty

def rename (f : String → String) (t : Ty) : Ty := t.bind fun v => .var (f v)

theorem bind_injOn {f g : String → Ty} {t : Ty} (h : t.bind f = t.bind g) :
    ∀ v ∈ t.vars, f v = g v := by
  induction t with
  | var w =>
      intro v hv
      rwa [mem_vars_var.1 hv]
  | con c ts ih =>
      intro v hv
      obtain ⟨t, ht, hv⟩ := mem_varsAll.1 (by simpa [vars] using hv)
      simp only [bind, bindAll_eq_map, con.injEq, true_and] at h
      exact ih t ht (List.map_inj_left.1 h t ht) v hv
  | fn a b iha ihb =>
      intro v hv
      simp only [bind, fn.injEq] at h
      rcases List.mem_append.1 hv with hv | hv
      · exact iha h.1 v hv
      · exact ihb h.2 v hv

theorem eq_var_of_bind_eq_var {r : String → Ty} {t : Ty} {v : String} (h : t.bind r = .var v) :
    ∃ w, t = .var w ∧ r w = .var v := by
  cases t with
  | var w => exact ⟨w, rfl, h⟩
  | con c ts => cases h
  | fn a b => cases h

end Ty

/-- An injection within a finite set of names is part of a permutation that moves no other. -/
theorem exists_perm_of_injOn {names : Finset String} {used : Set String} {f : String → String}
    (hmaps : ∀ v ∈ used, v ∈ names → f v ∈ names)
    (hinj : ∀ v ∈ used, v ∈ names → ∀ w ∈ used, w ∈ names → f v = f w → v = w) :
    ∃ π : Perm String, (∀ v ∈ used, v ∈ names → π v = f v) ∧ ∀ v ∉ names, π v = v := by
  have hcard : Fintype.card names = names.card := Fintype.card_coe names
  have hmaps' : Set.MapsTo (fun v : names => f v) {v : names | (v : String) ∈ used} names :=
    fun v hv => hmaps v hv v.2
  have hinj' : Set.InjOn (fun v : names => f v) {v : names | (v : String) ∈ used} :=
    fun v hv w hw heq => Subtype.ext (hinj v hv v.2 w hw w.2 heq)
  obtain ⟨e, he⟩ := hmaps'.exists_equiv_extend_of_card_eq hcard hinj'
  refine ⟨Perm.ofSubtype (p := (· ∈ names)) e, fun v hv hmem => ?_, fun v hv => ?_⟩
  · rw [Perm.ofSubtype_apply_of_mem (p := (· ∈ names)) e hmem]
    exact he ⟨v, hmem⟩ hv
  · exact Perm.ofSubtype_apply_of_not_mem (p := (· ∈ names)) e hv

namespace Subst

variable {s : Subst} {r : String → Ty} {t u : Ty}

/-- Two types that a solution makes equal are made equal, and it remains a solution. -/
theorem exists_reconcile_eq (hs : ∀ v, (s.image v).bind r = r v) (h : t.bind r = u.bind r) :
    ∃ s', unify (s.apply t) (s.apply u) = .ok s' ∧ s.reconcile t u = s'.compose s ∧
      ∀ v, ((s'.compose s).image v).bind r = r v := by
  have hsolves : (s.apply t).bind r = (s.apply u).bind r := by
    rw [bind_apply_of_factor hs, bind_apply_of_factor hs, h]
  obtain ⟨s', hs'⟩ := exists_unify_of_bind_eq hsolves
  refine ⟨s', hs', by rw [reconcile, hs'], fun v => ?_⟩
  rw [image_compose, bind_apply_of_unify hs' hsolves]
  exact hs v

end Subst

namespace Settles

variable {P : (String → Ty) → Prop} {s s' : Subst} {t u : Ty} {equations : List (Ty × Ty)}

/-- The other equations are settled under what the first one needs. -/
theorem after (hs : unify t u = .ok s)
    (h : Settles (Solves (equations.map fun e => (s.apply e.1, s.apply e.2))) (.ok s')) :
    Settles (Solves ((t, u) :: equations)) (.ok (s'.compose s)) := by
  constructor
  · intro e he
    change (s'.compose s).apply e.1 = (s'.compose s).apply e.2
    rw [Subst.apply_compose, Subst.apply_compose]
    rcases List.mem_cons.1 he with rfl | he
    · rw [unify_apply_eq hs]
    · exact h.1 _ (List.mem_map_of_mem he)
  · intro r hr v
    rw [Solves, List.forall_mem_cons] at hr
    have hfactor := bind_apply_of_unify hs hr.1
    have hrest : Solves (equations.map fun e => (s.apply e.1, s.apply e.2)) r := by
      intro e' he'
      obtain ⟨e, he, rfl⟩ := List.mem_map.1 he'
      rw [hfactor, hfactor]
      exact hr.2 e he
    rw [Subst.image_compose, Subst.bind_apply_of_factor (h.2 r hrest)]
    exact hfactor (.var v)

/-- Where two substitutions settle one problem, each undoes the other on what is left. -/
theorem exists_image_eq_var (h : Settles P (.ok s)) (h' : Settles P (.ok s')) {v w : String}
    (hv : v ∈ (s.image w).vars) : ∃ v', s'.image v = .var v' ∧ s.image v' = .var v := by
  have hround : (s.image w).bind (fun x => (s'.image x).bind s.image) = (s.image w).bind .var := by
    rw [← Ty.bind_bind, h.2 _ h'.1, h'.2 _ h.1, Ty.bind_var]
  exact Ty.eq_var_of_bind_eq_var (Ty.bind_injOn hround v hv)

/-- What settles a problem is unique up to the names of variables. -/
theorem exists_perm (h : Settles P (.ok s)) (h' : Settles P (.ok s')) :
    ∃ π : Perm String, ∀ t, s'.apply t = (s.apply t).rename π := by
  let names : Finset String := (s.bindings.keys ++ s'.bindings.keys).toFinset
  let used : Set String := {v | ∃ w, v ∈ (s.image w).vars}
  have houter : ∀ v ∉ names, s.image v = .var v ∧ s'.image v = .var v := by
    intro v hv
    simp only [names, List.mem_toFinset, List.mem_append, Std.ExtTreeMap.mem_keys, not_or] at hv
    exact ⟨Subst.image_of_not_mem hv.1, Subst.image_of_not_mem hv.2⟩
  have hexists : ∀ v, ∃ v', v ∈ used → s'.image v = .var v' ∧ s.image v' = .var v := by
    intro v
    by_cases hv : v ∈ used
    · obtain ⟨w, hw⟩ := hv
      obtain ⟨v', hv'⟩ := exists_image_eq_var h h' hw
      exact ⟨v', fun _ => hv'⟩
    · exact ⟨v, fun hmem => (hv hmem).elim⟩
  choose f hf using hexists
  have hmaps : ∀ v ∈ used, v ∈ names → f v ∈ names := by
    intro v hv hmem
    by_contra hout
    have heq := (hf v hv).2
    rw [(houter _ hout).1, Ty.var.injEq] at heq
    rw [heq] at hout
    exact hout hmem
  have hinj : ∀ v ∈ used, v ∈ names → ∀ w ∈ used, w ∈ names → f v = f w → v = w := by
    intro v hv _ w hw _ heq
    have hvw := (hf v hv).2
    rw [heq, (hf w hw).2, Ty.var.injEq] at hvw
    exact hvw.symm
  obtain ⟨π, hused, hother⟩ := exists_perm_of_injOn hmaps hinj
  refine ⟨π, fun t => ?_⟩
  refine (Subst.bind_apply_of_factor (h.2 _ h'.1) t).symm.trans ?_
  refine Ty.bind_congr fun v hv => ?_
  obtain ⟨w, -, hw⟩ := Ty.mem_vars_bind.1 hv
  by_cases hmem : v ∈ names
  · rw [hused v ⟨w, hw⟩ hmem]
    exact (hf v ⟨w, hw⟩).1
  · rw [hother v hmem]
    exact (houter v hmem).2

end Settles

end Plugboard
