import Plugboard.Proofs.Idempotence
import Plugboard.Proofs.Locality
import Plugboard.Proofs.Unifiers

/-!
# Types that inference leaves as they are

Where the types that are kept are an instance of what has been found, keeping what has been found
changes nothing: a unifier that takes a type to an instance of it leaves the variables of the
instance alone, so the substitution that brings the found types into agreement with the kept ones
takes each of them to the one that is there.
-/

namespace Plugboard

open Subst

/-- The unifier of a type and an instance of it leaves the variables of the instance alone. -/
theorem unify_fixes {q : String → Ty} {scope : String → Prop} (hq : ∀ v, scope v → q v = .var v) :
    (∀ a b : Ty, a.bind q = b → b.Over scope → ∀ s, unify a b = .ok s → s.Fixes scope) ∧
      ∀ ts us : List Ty, ts.map (Ty.bind q) = us → (∀ u ∈ us, u.Over scope) →
        ∀ s, unifyAll ts us = .ok s → s.Fixes scope := by
  have hempty : Subst.empty.Fixes scope := fun v _ => image_empty v
  apply unify_induction
  case var_left =>
    intro v t hbind _ s hs
    rw [unify_var_left] at hs
    split at hs
    · cases hs
      exact hempty
    · rename_i hne
      split at hs
      · cases hs
      · cases hs
        refine fun w hw => ?_
        rw [image_single, if_neg]
        rintro rfl
        exact hne (hbind.symm.trans (hq v hw))
  case var_right =>
    intro t v ht hbind
    cases t <;> cases ht <;> cases hbind
  case fn =>
    intro a r b t ih hbind hover s hs
    rw [unify_fn] at hs
    rw [Ty.Over.fn_iff] at hover
    obtain ⟨ha, hr⟩ := Ty.fn.inj hbind
    refine ih (by rw [← ha, ← hr]; rfl) ?_ s hs
    exact List.forall_mem_cons.2 ⟨hover.1, List.forall_mem_singleton.2 hover.2⟩
  case con =>
    intro c ts d us ih hbind hover s hs
    rw [Ty.bind, Ty.bindAll_eq_map] at hbind
    obtain ⟨rfl, hargs⟩ := Ty.con.inj hbind
    have hlength : ts.length = us.length := by rw [← hargs, List.length_map]
    rw [unify_con, if_neg (not_not.2 rfl), if_neg (not_not.2 hlength)] at hs
    exact ih rfl hlength hargs (Ty.Over.con_iff.1 hover) s hs
  case con_fn =>
    intro c ts a r hbind
    cases hbind
  case fn_con =>
    intro a r c ts hbind
    cases hbind
  case nil_left =>
    intro us _ _ s hs
    rw [unifyAll_nil_left] at hs
    cases hs
    exact hempty
  case nil_right =>
    intro ts _ _ s hs
    rw [unifyAll_nil_right] at hs
    cases hs
    exact hempty
  case cons =>
    intro t ts u us ihhead ihtail hbind hover s hs
    obtain ⟨hhead, htail⟩ := List.cons_eq_cons.1 hbind
    rw [List.forall_mem_cons] at hover
    rw [unifyAll_cons] at hs
    obtain ⟨first, hfirst, hs⟩ := bind_eq_ok.1 hs
    obtain ⟨second, hsecond, hs⟩ := bind_eq_ok.1 hs
    cases hs
    have hfixes := ihhead hhead hover.1 first hfirst
    -- what is left of the second list is as it was, and still an instance of the first one
    have hleft : us.map first.apply = us :=
      (List.map_congr_left fun x hx => apply_of_fixes hfixes (hover.2 x hx)).trans (List.map_id' us)
    have hu : u.bind q = u :=
      (Ty.bind_congr fun v hv => hq v (hover.1 v hv)).trans (Ty.bind_var u)
    have hrest : (ts.map first.apply).map (Ty.bind q) = us := by
      rw [List.map_map, ← htail]
      exact List.map_congr_left fun x _ => bind_apply_of_unify hfirst (hhead.trans hu.symm) x
    have hfixes' := ihtail first hfirst
    rw [hleft] at hsecond hfixes'
    replace hfixes' := hfixes' hrest hover.2 second hsecond
    intro v hv
    rw [image_compose, hfixes v hv]
    exact hfixes' v hv

namespace Graph

variable {g : Graph} {q : String → Ty} {scope : String → Prop} {placed : List (Place × Ty)}

/-- What is kept at the places are instances of the types for them, all at once. -/
structure Instances (g : Graph) (scope : String → Prop) (q : String → Ty)
    (placed : List (Place × Ty)) : Prop where
  old : ∀ v, scope v → q v = .var v
  kept : ∀ p ∈ placed, g.keptAt p.1 = some (p.2.bind q) ∧ (p.2.bind q).Over scope

theorem agreed_eq (g : Graph) (placed : List (Place × Ty)) :
    g.agreed placed =
      placed.foldl (fun s p => (g.keptAt p.1).elim s (s.reconcile p.2)) .empty := by
  rw [agreed]
  congr 1
  funext s p
  cases g.keptAt p.1 <;> rfl

/-- Bringing the types into agreement with what is kept takes each to what is kept. -/
theorem Instances.agreed (h : g.Instances scope q placed) :
    (g.agreed placed).Fixes scope ∧ ∀ p ∈ placed, (g.agreed placed).apply p.2 = p.2.bind q := by
  have hsame : ∀ {t : Ty}, t.Over scope → t.bind q = t := fun ht =>
    (Ty.bind_congr fun v hv => h.old v (ht v hv)).trans (Ty.bind_var _)
  suffices hfold : ∀ (placed : List (Place × Ty)) (s : Subst),
      (∀ p ∈ placed, g.keptAt p.1 = some (p.2.bind q) ∧ (p.2.bind q).Over scope) →
      s.Fixes scope → (∀ v, (s.image v).bind q = q v) →
      let r := placed.foldl (fun s p => (g.keptAt p.1).elim s (s.reconcile p.2)) s
      r.Fixes scope ∧ (∀ p ∈ placed, r.apply p.2 = p.2.bind q) ∧
        ∀ t : Ty, s.apply t = t.bind q → (t.bind q).Over scope → r.apply t = t.bind q by
    obtain ⟨hfixes, hplaced, -⟩ := hfold placed .empty h.kept (fun v _ => image_empty v)
      fun v => by rw [image_empty, Ty.bind]
    rw [agreed_eq]
    exact ⟨hfixes, hplaced⟩
  intro placed
  induction placed with
  | nil =>
      exact fun s _ hfixes _ =>
        ⟨hfixes, fun p hp => (List.not_mem_nil hp).elim, fun t ht _ => ht⟩
  | cons p placed ih =>
      intro s hkept hfixes hfactor
      rw [List.forall_mem_cons] at hkept
      obtain ⟨⟨hp, hover⟩, hkept⟩ := hkept
      have hleft : s.apply (p.2.bind q) = p.2.bind q := apply_of_fixes hfixes hover
      have hbind : (s.apply p.2).bind q = p.2.bind q := bind_apply_of_factor hfactor p.2
      obtain ⟨u, hunify, hreconcile, hfactor'⟩ := exists_reconcile_eq hfactor (hsame hover).symm
      rw [hleft] at hunify
      have hu := (unify_fixes h.old).1 _ _ hbind hover u hunify
      rw [List.foldl_cons, hp, Option.elim_some, hreconcile]
      have hfixes' : (u.compose s).Fixes scope := fun v hv => by
        rw [image_compose, hfixes v hv]
        exact hu v hv
      obtain ⟨hr, hrest, hstays⟩ := ih (u.compose s) hkept hfixes' hfactor'
      refine ⟨hr, List.forall_mem_cons.2 ⟨hstays p.2 ?_ hover, hrest⟩,
        fun t ht htover => hstays t ?_ htover⟩
      · rw [apply_compose, unify_apply_eq hunify]
        exact apply_of_fixes hu hover
      · rw [apply_compose, ht]
        exact apply_of_fixes hu htover

/-- Types of which all that is kept are instances leave everything as it is. -/
theorem Instances.keptAt_annotated {types : Std.ExtTreeMap Tag Ty} {members : BlockSet}
    {loose K : Set BlockId} (h : g.Instances scope q (g.placed types members))
    (hsh : g.shape.Regular loose) (hK : g.shape.Closed K) (htags : g.TagsOn K types)
    (hover : ∀ {place t}, g.keptAt place = some t → t.Over scope) {b : BlockId} {place : Place}
    (hb : g.shape.Hosts b place) :
    (g.annotated types members).keptAt place = g.keptAt place := by
  obtain ⟨hfixes, hplaced⟩ := h.agreed
  have hleft : (g.keptAt place).map (g.agreed (g.placed types members)).apply =
      g.keptAt place := by
    cases ht : g.keptAt place with
    | none => rfl
    | some t => exact congrArg some (apply_of_fixes hfixes (hover ht))
  rw [Graph.keptAt_annotated hsh hK htags hb, hleft, ite_self]
  -- whichever of the new types is the last one for the place, it is the old type
  have hold : ∀ u, (place, u) ∈ settledAt (g.agreed (g.placed types members))
      (g.placed types members) → g.keptAt place = some u := by
    intro u hu
    obtain ⟨found, hfound, heq⟩ := List.mem_map.1 hu
    cases heq
    rw [hplaced found hfound]
    exact (h.kept found hfound).1
  cases hkept : g.keptAt place with
  | none =>
      refine foldl_kept_of_forall_ne fun p hp hplace => ?_
      subst hplace
      cases hkept.symm.trans (hold p.2 hp)
  | some t =>
      exact foldl_kept_of_mem (fun u hu => Option.some.inj ((hold u hu).symm.trans hkept))
        (.inl rfl)

end Graph

end Plugboard
