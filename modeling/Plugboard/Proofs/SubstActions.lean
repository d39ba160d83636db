import Mathlib
import Plugboard.Proofs.InferenceScope
import Plugboard.Proofs.Unifiers

/-!
# What substitutions act on

Composition makes substitutions a monoid, and applying them to types is an action of it: what has
been composed along the way, in whatever order, is applied at once. The substitution of a scheme
leaves the quantified names alone and does not rename them, so a scheme that is instantiated
afterwards has the same instance as one whose instance is substituted if and only if nothing is
captured.
-/

namespace Plugboard

namespace Subst

/-- Composition is sequential application, it is associative, and the empty substitution is
neutral on both sides. -/
theorem compose_monoid (s₁ s₂ s₃ : Subst) (t : Ty) :
    (s₁.compose s₂).apply t = s₁.apply (s₂.apply t) ∧
      s₁.compose (s₂.compose s₃) = (s₁.compose s₂).compose s₃ ∧
      s₁.compose empty = s₁ ∧ empty.compose s₁ = s₁ :=
  ⟨apply_compose s₁ s₂ t, compose_assoc s₁ s₂ s₃, compose_empty s₁, empty_compose s₁⟩

/-- Two bindings of one variable, one of them through itself. -/
example : ((ofList [("A", .list (.var "A"))]).compose (ofList [("A", .var "B")])).toList =
    [("A", .var "B")] := by
  cbv

variable {s : Subst}

/-- All names that a substitution binds or mentions are in a scope. -/
def NamesIn (scope : String → Prop) (s : Subst) : Prop :=
  ∀ (v : String) (t : Ty), s.bindings[v]? = some t → scope v ∧ ∀ w ∈ t.vars, scope w

theorem namesIn_iff {scope : String → Prop} :
    s.NamesIn scope ↔ ∀ p ∈ s.toList, scope p.1 ∧ ∀ w ∈ p.2.vars, scope w := by
  simp only [NamesIn, toList, Prod.forall, Std.ExtTreeMap.mem_toList_iff_getElem?_eq_some]

theorem NamesIn.within {scope : String → Prop} (h : s.NamesIn scope) : s.Within scope := by
  intro v
  cases hv : s.bindings[v]? with
  | none => exact .inl (by simp [image, hv])
  | some t => exact .inr (by simpa [image, hv] using h v t hv)

end Subst

theorem Ty.bind_eq_bind_iff {f g : String → Ty} {t : Ty} :
    t.bind f = t.bind g ↔ ∀ v ∈ t.vars, f v = g v :=
  ⟨bind_injOn, bind_congr⟩

theorem Ty.bind_eq_self_iff {f : String → Ty} {t : Ty} :
    t.bind f = t ↔ ∀ v ∈ t.vars, f v = .var v := by
  rw [← bind_eq_bind_iff, bind_var]

namespace Scheme

variable {s : Subst} {scheme : Scheme} {pool : VarPool}

/-- What a scheme becomes that is first substituted and then instantiated. -/
theorem instantiate_applyScheme (s : Subst) (scheme : Scheme) (pool : VarPool) :
    ((s.applyScheme scheme).instantiate pool).1 = scheme.body.bind fun v =>
      if v ∈ scheme.vars then scheme.renewal pool v
      else (s.image v).bind (scheme.renewal pool) := by
  rw [instantiate_fst, Subst.applyScheme_body, Ty.bind_bind]
  refine Ty.bind_congr fun v _ => ?_
  by_cases hv : v ∈ scheme.vars
  · rw [if_pos hv, if_pos hv]
    rfl
  · rw [if_neg hv, if_neg hv]
    rfl

/-- What it becomes the other way round: the substitution leaves the fresh variables alone. -/
theorem apply_instantiate (hpool : pool.Distinct) (hs : s.Within fun v => pool.isUsed v) :
    s.apply (scheme.instantiate pool).1 =
      scheme.body.bind fun v => if v ∈ scheme.vars then scheme.renewal pool v else s.image v := by
  have hrenews := scheme.renewal_renews hpool
  rw [instantiate_fst, Subst.apply, Ty.bind_bind]
  refine Ty.bind_congr fun v _ => ?_
  by_cases hv : v ∈ scheme.vars
  · obtain ⟨w, hw, hunused, -⟩ := hrenews.fresh v hv
    rw [if_pos hv, hw]
    exact hs.image_eq (by simp [hunused])
  · rw [if_neg hv, hrenews.away v hv]
    rfl

/-- An image is left alone by an instantiation if it mentions no quantified name. If it mentions
one, that name is in use, and what it becomes is not. -/
theorem bind_renewal_eq_iff (hpool : pool.Distinct) (hs : s.Within fun v => pool.isUsed v)
    {v : String} (hv : v ∉ scheme.vars) :
    (s.image v).bind (scheme.renewal pool) = s.image v ↔
      ∀ w ∈ (s.image v).vars, w ∉ scheme.vars := by
  have hrenews := scheme.renewal_renews hpool
  rw [Ty.bind_eq_self_iff]
  refine forall₂_congr fun w hw => ⟨fun hsame hq => ?_, hrenews.away w⟩
  obtain ⟨u, hu, hunused, -⟩ := hrenews.fresh w hq
  obtain rfl : u = w := by simpa [hu] using hsame
  rcases hs v with hfix | ⟨-, hused⟩
  · rw [hfix] at hw
    exact hv (Ty.mem_vars_var.1 hw ▸ hq)
  · simpa [hunused] using hused u hw

/-- Substituting in a scheme and then instantiating it, or the other way round: both leave the same
pool behind, and both give the same type if and only if no image of a free variable mentions a
quantified name. -/
theorem instantiate_applyScheme_eq_iff (hpool : pool.Distinct)
    (hs : s.NamesIn fun v => pool.isUsed v) :
    ((s.applyScheme scheme).instantiate pool).2 = (scheme.instantiate pool).2 ∧
      (((s.applyScheme scheme).instantiate pool).1 = s.apply (scheme.instantiate pool).1 ↔
        s.Avoids scheme) := by
  refine ⟨rfl, ?_⟩
  rw [instantiate_applyScheme, apply_instantiate hpool hs.within, Ty.bind_eq_bind_iff]
  constructor
  · intro h v hfree
    have hv := h v hfree.1
    rw [if_neg hfree.2, if_neg hfree.2] at hv
    exact (bind_renewal_eq_iff hpool hs.within hfree.2).1 hv
  · intro h v hv
    by_cases hq : v ∈ scheme.vars
    · rw [if_pos hq, if_pos hq]
    · rw [if_neg hq, if_neg hq]
      exact (bind_renewal_eq_iff hpool hs.within hq).2 (h v ⟨hv, hq⟩)

/-- One of the bound variables is quantified, and repeatedly. -/
theorem instantiate_applyScheme_eq_repeated :
    let pool := ((VarPool.default.reserve "A").reserve "B").reserve "C"
    let s := Subst.ofList [("A", .number), ("B", .list (.var "C"))]
    let scheme : Scheme := ⟨["A", "A"], .fn (.var "A") (.var "B")⟩
    ((s.applyScheme scheme).instantiate pool).1 = s.apply (scheme.instantiate pool).1 ∧
      s.apply (scheme.instantiate pool).1 = .fn (.var "E") (.list (.var "C")) := by
  have hpool := (((VarPool.distinct_withColour VarPool.defaultColour).reserve "A").reserve
    "B").reserve "C"
  have hs : (Subst.ofList [("A", .number), ("B", .list (.var "C"))]).NamesIn fun v =>
      (((VarPool.default.reserve "A").reserve "B").reserve "C").isUsed v := by
    have hlist : (Subst.ofList [("A", .number), ("B", .list (.var "C"))]).toList =
        [("A", .number), ("B", .list (.var "C"))] := by cbv
    rw [Subst.namesIn_iff, hlist]
    decide
  have havoids : (Subst.ofList [("A", .number), ("B", .list (.var "C"))]).Avoids
      ⟨["A", "A"], .fn (.var "A") (.var "B")⟩ := by
    rintro v ⟨hv, hq⟩ w hw
    have himage : (Subst.ofList [("A", .number), ("B", .list (.var "C"))]).image "B" =
        .list (.var "C") := by cbv
    have hne : v ≠ "A" := by simpa using hq
    obtain rfl : v = "B" := by simpa [Ty.vars, hne] using hv
    rw [himage] at hw
    obtain rfl : w = "C" := by simpa [Ty.list, Ty.vars, Ty.varsAll] using hw
    decide
  refine ⟨(instantiate_applyScheme_eq_iff hpool hs).2.2 havoids, ?_⟩
  cbv

/-- The substitution of `B` by `A` captures the quantified variable of `forall A. A -> B`. -/
theorem not_instantiate_applyScheme_eq :
    ¬ ∀ (s : Subst) (scheme : Scheme) (pool : VarPool), pool.Reachable →
      s.NamesIn (fun v => pool.isUsed v) →
      (∀ v ∈ scheme.vars ++ scheme.body.vars, pool.isUsed v) →
      ((s.applyScheme scheme).instantiate pool).1 = s.apply (scheme.instantiate pool).1 := by
  intro hall
  have hlist : (Subst.single "B" (.var "A")).toList = [("B", .var "A")] := by cbv
  have heq := hall (.single "B" (.var "A")) ⟨["A"], .fn (.var "A") (.var "B")⟩
    VarPool.default.allocate.2.allocate.2 (.allocate (.allocate (.new _)))
    (Subst.namesIn_iff.2 (hlist ▸ by decide)) (by decide)
  have hleft : (((Subst.single "B" (.var "A")).applyScheme
      ⟨["A"], .fn (.var "A") (.var "B")⟩).instantiate VarPool.default.allocate.2.allocate.2).1 =
        .fn (.var "C") (.var "C") := by cbv
  have hright : (Subst.single "B" (.var "A")).apply ((⟨["A"], .fn (.var "A") (.var "B")⟩ :
      Scheme).instantiate VarPool.default.allocate.2.allocate.2).1 =
        .fn (.var "C") (.var "A") := by cbv
  rw [hleft, hright] at heq
  simp at heq

end Scheme

end Plugboard
