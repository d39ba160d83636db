import Plugboard.Unify

/-!
# Unification is most general

Unification settles an equation of types in the strongest sense. What it returns solves the
equation and is a factor of every other solution, and where it reports an error there is no
solution at all. Solutions are arbitrary maps from variables to types here, finite or not,
so that later arguments can extend them at will.
-/

namespace Plugboard

namespace Ty

theorem mem_vars_var {v w : String} : w ∈ (var v).vars ↔ w = v := by
  simp [vars]

theorem size_le_sizeAll {t : Ty} {ts : List Ty} (h : t ∈ ts) : t.size ≤ sizeAll ts := by
  induction ts with
  | nil => cases h
  | cons u us ih =>
      rw [sizeAll]
      rcases List.mem_cons.1 h with rfl | h
      · omega
      · have := ih h
        omega

theorem size_le_size_bind (r : String → Ty) {v : String} {t : Ty} (h : v ∈ t.vars) :
    (r v).size ≤ (t.bind r).size := by
  induction t with
  | var w =>
      obtain rfl := mem_vars_var.1 h
      exact Nat.le_refl _
  | con c ts ih =>
      obtain ⟨t, ht, hv⟩ := mem_varsAll.1 (by simpa [vars] using h)
      have hmem : t.bind r ∈ ts.map (bind r) := List.mem_map_of_mem ht
      have hsum := size_le_sizeAll hmem
      have hpart := ih t ht hv
      simp only [bind, bindAll_eq_map, size]
      omega
  | fn a b iha ihb =>
      simp only [bind, size]
      rcases List.mem_append.1 h with h | h
      · have := iha h
        omega
      · have := ihb h
        omega

/-- The occurs check: no solution makes a variable equal to a larger type around it. -/
theorem ne_bind_of_mem (r : String → Ty) {v : String} {t : Ty} (hv : v ∈ t.vars)
    (ht : t ≠ .var v) : r v ≠ t.bind r := by
  intro heq
  have hsize := congrArg size heq
  cases t with
  | var w =>
      obtain rfl := mem_vars_var.1 hv
      exact ht rfl
  | con c ts =>
      obtain ⟨t, hmem, hv⟩ := mem_varsAll.1 (by simpa [vars] using hv)
      have hle := size_le_size_bind r hv
      have hsum : (t.bind r).size ≤ sizeAll (ts.map (bind r)) :=
        size_le_sizeAll (List.mem_map_of_mem hmem)
      simp only [bind, bindAll_eq_map, size] at hsize
      omega
  | fn a b =>
      simp only [bind, size] at hsize
      rcases List.mem_append.1 hv with hv | hv
      · have := size_le_size_bind r hv
        omega
      · have := size_le_size_bind r hv
        omega

end Ty

namespace Subst

/-- The map that applies a substitution and then another map. -/
def andThen (s : Subst) (r : String → Ty) (v : String) : Ty := (s.image v).bind r

theorem bind_andThen (s : Subst) (r : String → Ty) (t : Ty) :
    t.bind (s.andThen r) = (s.apply t).bind r :=
  (Ty.bind_bind ..).symm

theorem andThen_var (s : Subst) : s.andThen .var = s.image :=
  funext fun _ => Ty.bind_var _

theorem andThen_compose (second first : Subst) (r : String → Ty) :
    (second.compose first).andThen r = first.andThen (second.andThen r) := by
  funext v
  rw [andThen, image_compose, andThen, bind_andThen]

/-- A factor of `r` on variables is one on types. -/
theorem bind_apply_of_factor {s : Subst} {r : String → Ty}
    (h : ∀ v, (s.image v).bind r = r v) (t : Ty) : (s.apply t).bind r = t.bind r := by
  rw [← bind_andThen]
  exact Ty.bind_congr fun v _ => h v

end Subst

/-- Unification seen through `unify` and `unifyAll`, without the scopes they carry along.
A pair of constructors comes down to its arguments only where names and numbers agree. -/
theorem unify_induction {one : Ty → Ty → Prop} {all : List Ty → List Ty → Prop}
    (var_left : ∀ v t, one (.var v) t)
    (var_right : ∀ t v, t.isVar = false → one t (.var v))
    (fn : ∀ a r b q, all [a, r] [b, q] → one (.fn a r) (.fn b q))
    (con : ∀ c ts d us, (c = d → ts.length = us.length → all ts us) →
      one (.con c ts) (.con d us))
    (con_fn : ∀ c ts a r, one (.con c ts) (.fn a r))
    (fn_con : ∀ a r c ts, one (.fn a r) (.con c ts))
    (nil_left : ∀ us, all [] us)
    (nil_right : ∀ ts, all ts [])
    (cons : ∀ t ts u us, one t u →
      (∀ first, unify t u = .ok first →
        all (ts.map first.apply) (us.map first.apply)) → all (t :: ts) (u :: us)) :
    (∀ a b, one a b) ∧ ∀ ts us, all ts us := by
  have hunify : ∀ {t u : Ty} {first : Elimination (t.vars ++ u.vars)},
      eliminate t u = .ok first → ∀ s, unify t u = .ok s → s = first.1 := by
    intro t u first h s hs
    simpa [unify, h, Except.map, eq_comm] using hs
  refine eliminate.mutual_induct one all var_left ?_ (fun a r b q _ _ => fn a r b q)
    (fun a r b q _ _ => fn a r b q) ?_ ?_ ?_ ?_ ?_ ?_ ?_ ?_
  · intro t v ht
    refine var_right t v ?_
    cases t with
    | var w => exact (ht w rfl).elim
    | con | fn => rfl
  · intro c ts d us hne
    exact con c ts d us fun h => (hne h).elim
  · intro c ts d us _ hne
    exact con c ts d us fun _ h => (hne h).elim
  · intro c ts d us _ _ h
    exact con c ts d us fun _ _ => h
  · intro t u ht hu hfn hcon
    cases t with
    | var v => exact (ht v rfl).elim
    | con c ts =>
        cases u with
        | var v => exact (hu v rfl).elim
        | con d us => exact (hcon c ts d us rfl rfl).elim
        | fn a r => exact con_fn c ts a r
    | fn a r =>
        cases u with
        | var v => exact (hu v rfl).elim
        | con c ts => exact fn_con a r c ts
        | fn b q => exact (hfn a r b q rfl rfl).elim
  · intro t ts u us e he h
    refine cons t ts u us h fun first hfirst => ?_
    simp [unify, he, Except.map] at hfirst
  · intro t ts u us first hf e _ h hrest
    exact cons t ts u us h fun s hs => hunify hf s hs ▸ hrest
  · intro t ts u us first hf second _ h hrest
    exact cons t ts u us h fun s hs => hunify hf s hs ▸ hrest
  · intro ts us hnil
    cases ts with
    | nil => exact nil_left us
    | cons t ts =>
        cases us with
        | nil => exact nil_right _
        | cons u us => exact (hnil t ts u us rfl rfl).elim

/-- What unification has to say about a problem, given as the set of its solutions: one
through which every other factors, or that there is none. -/
def Settles (Solution : (String → Ty) → Prop) : Except UnifyError Subst → Prop
  | .ok s => Solution s.image ∧ ∀ r, Solution r → ∀ v, (s.image v).bind r = r v
  | .error _ => ∀ r, ¬ Solution r

namespace Settles

theorem congr {P Q : (String → Ty) → Prop} {outcome : Except UnifyError Subst}
    (h : Settles P outcome) (hiff : ∀ r, P r ↔ Q r) : Settles Q outcome := by
  have hPQ : P = Q := funext fun r => propext (hiff r)
  exact hPQ ▸ h

theorem trivial {P : (String → Ty) → Prop} (h : ∀ r, P r) : Settles P (.ok .empty) :=
  ⟨h _, fun r _ v => by rw [Subst.image_empty, Ty.bind]⟩

/-- The equation of a variable and a type. -/
theorem var (v : String) (t : Ty) :
    Settles (fun r => r v = t.bind r)
      (if t = .var v then .ok .empty
      else if v ∈ t.vars then .error (.occurs v t)
      else .ok (.single v t)) := by
  by_cases ht : t = .var v
  · rw [if_pos ht]
    exact trivial fun r => by rw [ht, Ty.bind]
  · rw [if_neg ht]
    by_cases hv : v ∈ t.vars
    · rw [if_pos hv]
      exact fun r => Ty.ne_bind_of_mem r hv ht
    · rw [if_neg hv]
      refine ⟨?_, fun r hr w => ?_⟩
      · have hfix : t.bind (Subst.single v t).image = t.bind .var :=
          Ty.bind_congr fun w hw => by
            have hne : v ≠ w := fun e => hv (e ▸ hw)
            rw [Subst.image_single, if_neg hne]
        change (Subst.single v t).image v = t.bind (Subst.single v t).image
        rw [hfix, Ty.bind_var, Subst.image_single, if_pos rfl]
      · rw [Subst.image_single]
        by_cases hw : v = w
        · rw [if_pos hw, ← hr, hw]
        · rw [if_neg hw, Ty.bind]

/-- Heads first, and then the tails under what the heads need. -/
theorem cons {t u : Ty} {ts us : List Ty}
    (head : Settles (fun r => t.bind r = u.bind r) (unify t u))
    (tail : ∀ first, unify t u = .ok first →
      Settles (fun r => (ts.map first.apply).map (Ty.bind r) = (us.map first.apply).map (Ty.bind r))
        (unifyAll (ts.map first.apply) (us.map first.apply))) :
    Settles (fun r => (t :: ts).map (Ty.bind r) = (u :: us).map (Ty.bind r))
      (unifyAll (t :: ts) (u :: us)) := by
  rw [unifyAll_cons]
  cases hfirst : unify t u with
  | error e =>
      rw [hfirst] at head
      intro r hr
      exact head r (List.cons_eq_cons.1 hr).1
  | ok first =>
      rw [hfirst] at head
      obtain ⟨hsolves, hfactor⟩ := head
      have hrest := tail first hfirst
      -- a solution of the heads factors through `first`, so it solves what is left as well
      have htails : ∀ r, (∀ v, (first.image v).bind r = r v) →
          ts.map (Ty.bind r) = us.map (Ty.bind r) →
          (ts.map first.apply).map (Ty.bind r) = (us.map first.apply).map (Ty.bind r) := by
        intro r hr htail
        have hafter : ∀ xs : List Ty,
            (xs.map first.apply).map (Ty.bind r) = xs.map (Ty.bind r) := by
          intro xs
          rw [List.map_map]
          exact List.map_congr_left fun x _ => Subst.bind_apply_of_factor hr x
        exact (hafter ts).trans (htail.trans (hafter us).symm)
      simp only [bind, Except.bind]
      cases hsecond : unifyAll (ts.map first.apply) (us.map first.apply) with
      | error e =>
          rw [hsecond] at hrest
          change ∀ r, ¬ _
          intro r hr
          obtain ⟨hhead, htail⟩ := List.cons_eq_cons.1 hr
          exact hrest r (htails r (hfactor r hhead) htail)
      | ok second =>
          rw [hsecond] at hrest
          obtain ⟨hsolves', hfactor'⟩ := hrest
          have himage : ∀ xs : List Ty, xs.map (Ty.bind (second.compose first).image) =
              (xs.map first.apply).map (Ty.bind second.image) := by
            intro xs
            rw [List.map_map]
            exact List.map_congr_left fun x _ => Subst.apply_compose second first x
          refine ⟨?_, fun r hr v => ?_⟩
          · have hhead : first.apply t = first.apply u := hsolves
            refine (himage (t :: ts)).trans (Eq.trans ?_ (himage (u :: us)).symm)
            rw [List.map_cons, List.map_cons, List.map_cons, List.map_cons, hhead]
            exact congrArg _ hsolves'
          · obtain ⟨hhead, htail⟩ := List.cons_eq_cons.1 hr
            have hfirst' := hfactor r hhead
            have hsecond' := hfactor' r (htails r hfirst' htail)
            change ((second.compose first).image v).bind r = r v
            rw [Subst.image_compose, Subst.bind_apply_of_factor hsecond']
            exact hfirst' v

end Settles

/-- Unification settles every equation of types, and every list of equations. -/
theorem unify_settles_and_unifyAll_settles :
    (∀ a b, Settles (fun r => a.bind r = b.bind r) (unify a b)) ∧
      ∀ ts us : List Ty, ts.length = us.length →
        Settles (fun r => ts.map (Ty.bind r) = us.map (Ty.bind r)) (unifyAll ts us) := by
  apply unify_induction
  case var_left =>
    intro v t
    rw [unify_var_left]
    exact Settles.var v t
  case var_right =>
    intro t v ht
    rw [unify_var_right v t ht]
    have hne : t ≠ .var v := fun h => by simp [h, Ty.isVar] at ht
    refine Settles.congr ?_ fun r => eq_comm
    simpa [hne, Ty.bind] using Settles.var v t
  case fn =>
    intro a r b q ih
    rw [unify_fn]
    exact (ih rfl).congr fun s => by simp [Ty.bind]
  case con =>
    intro c ts d us ih
    rw [unify_con]
    by_cases hc : c = d
    · by_cases hl : ts.length = us.length
      · simp only [hc, hl, ne_eq, not_true_eq_false, if_false]
        exact (ih hc hl hl).congr fun s => by simp [Ty.bind, Ty.bindAll_eq_map]
      · simp only [hc, hl, ne_eq, not_true_eq_false, if_false, not_false_eq_true, if_true]
        intro s hs
        simp only [Ty.bind, Ty.bindAll_eq_map, Ty.con.injEq] at hs
        exact hl (by simpa using congrArg List.length hs.2)
    · simp only [hc, ne_eq, not_false_eq_true, if_true]
      intro s hs
      simp only [Ty.bind, Ty.con.injEq] at hs
      exact hc hs.1
  case con_fn =>
    intro c ts a r
    rw [unify_con_fn]
    intro s hs
    simp [Ty.bind] at hs
  case fn_con =>
    intro a r c ts
    rw [unify_fn_con]
    intro s hs
    simp [Ty.bind] at hs
  case nil_left =>
    intro us hl
    obtain rfl : us = [] := List.eq_nil_of_length_eq_zero hl.symm
    rw [unifyAll_nil_left]
    exact Settles.trivial fun _ => rfl
  case nil_right =>
    intro ts hl
    obtain rfl : ts = [] := List.eq_nil_of_length_eq_zero hl
    rw [unifyAll_nil_left]
    exact Settles.trivial fun _ => rfl
  case cons =>
    intro t ts u us head tail hl
    refine Settles.cons head fun first hfirst => tail first hfirst ?_
    simpa using hl

theorem unify_settles (a b : Ty) : Settles (fun r => a.bind r = b.bind r) (unify a b) :=
  unify_settles_and_unifyAll_settles.1 a b

theorem unify_eliminates {a b : Ty} {s : Subst} (h : unify a b = .ok s) :
    s.Eliminates (a.vars ++ b.vars) := by
  cases he : eliminate a b with
  | error e => simp [unify, he, Except.map] at h
  | ok r =>
      obtain rfl : r.1 = s := by simpa [unify, he, Except.map] using h
      exact r.2

theorem unify_apply_eq {a b : Ty} {s : Subst} (h : unify a b = .ok s) :
    s.apply a = s.apply b := by
  have hsettles := unify_settles a b
  rw [h] at hsettles
  exact hsettles.1

/-- A solution of an equation that unification has solved factors through its answer. -/
theorem bind_apply_of_unify {a b : Ty} {s : Subst} (h : unify a b = .ok s) {r : String → Ty}
    (hr : a.bind r = b.bind r) (t : Ty) : (s.apply t).bind r = t.bind r := by
  have hsettles := unify_settles a b
  rw [h] at hsettles
  exact Subst.bind_apply_of_factor (hsettles.2 r hr) t

/-- Unification succeeds on an equation that has a solution. -/
theorem exists_unify_of_bind_eq {a b : Ty} {r : String → Ty} (hr : a.bind r = b.bind r) :
    ∃ s, unify a b = .ok s := by
  have hsettles := unify_settles a b
  cases h : unify a b with
  | ok s => exact ⟨s, rfl⟩
  | error e =>
      rw [h] at hsettles
      exact (hsettles r hr).elim

namespace Subst.Eliminates

variable {s : Subst} {scope : List String}

theorem image_subset (h : s.Eliminates scope) {v : String} {t : Ty}
    (hv : s.bindings[v]? = some t) : v ∈ scope ∧ t.vars ⊆ scope := by
  have hmem : v ∈ s.bindings := Std.ExtTreeMap.mem_iff_isSome_getElem?.2 (by simp [hv])
  have himage : s.image v = t := by simp [image, hv]
  exact ⟨h.binds v hmem, himage ▸ h.introduces v (h.binds v hmem)⟩

theorem not_mem_vars_image (h : s.Eliminates scope) {v w : String} {t : Ty}
    (hv : v ∈ s.bindings) (hw : s.bindings[w]? = some t) : v ∉ t.vars := by
  have himage : s.image w = t := by simp [image, hw]
  exact himage ▸ h.removes v w hv

theorem apply_apply (h : s.Eliminates scope) (t : Ty) : s.apply (s.apply t) = s.apply t := by
  have hfix : (s.apply t).bind s.image = (s.apply t).bind .var := by
    refine Ty.bind_congr fun v hv => image_of_not_mem fun hmem => ?_
    obtain ⟨w, -, hw⟩ := mem_vars_apply.1 hv
    exact h.removes v w hmem hw
  exact hfix.trans (Ty.bind_var _)

end Subst.Eliminates

/-- Unification is exactly most general unification. A success makes both types equal, stays
within their variables, is idempotent because no name it binds is left in an image, and is a
factor of every other unifier. A failure means that the types have no unifier. -/
theorem unify_most_general (a b : Ty) :
    match unify a b with
    | .ok s =>
        s.apply a = s.apply b ∧
        (∀ (v : String) (t : Ty), s.bindings[v]? = some t →
          v ∈ a.vars ++ b.vars ∧ t.vars ⊆ a.vars ++ b.vars) ∧
        (∀ (v w : String) (t : Ty), v ∈ s.bindings → s.bindings[w]? = some t → v ∉ t.vars) ∧
        (∀ t, s.apply (s.apply t) = s.apply t) ∧
        ∀ r : Subst, r.apply a = r.apply b → ∀ t, r.apply t = r.apply (s.apply t)
    | .error _ => ∀ r : Subst, r.apply a ≠ r.apply b := by
  cases h : unify a b with
  | ok s =>
      have helim := unify_eliminates h
      refine ⟨unify_apply_eq h, fun v t => helim.image_subset,
        fun v w t => helim.not_mem_vars_image, helim.apply_apply, fun r hr t => ?_⟩
      exact (bind_apply_of_unify h hr t).symm
  | error e =>
      have hsettles := unify_settles a b
      rw [h] at hsettles
      exact fun r => hsettles r.image

end Plugboard
