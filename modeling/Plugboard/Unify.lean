import Plugboard.Subst

/-!
# Unification

The most general substitution that makes two types equal. Argument lists are
unified from left to right, the substitution found so far being applied to what
is left. Each step either removes a variable from the problem for good or makes
the problem smaller without adding variables, so the recursion ends.
-/

namespace Plugboard

inductive UnifyError where
  | mismatch (left right : Ty)
  | occurs (name : String) (ty : Ty)
  | arity (left right : Ty)
  deriving DecidableEq

def UnifyError.message : UnifyError → String
  | .mismatch left right => s!"type mismatch: {left} vs {right}"
  | .occurs name ty => s!"occurs check: cannot construct infinite type {name} = {ty}"
  | .arity left right => s!"arity mismatch: {left} vs {right}"

/-- Number of different names in a list. -/
def distinct : List String → Nat
  | [] => 0
  | v :: vs => if v ∈ vs then distinct vs else distinct vs + 1

theorem distinct_filter_ne (v : String) (vs : List String) :
    distinct vs = distinct (vs.filter (· ≠ v)) + if v ∈ vs then 1 else 0 := by
  induction vs with
  | nil => rfl
  | cons w ws ih =>
      by_cases hw : w = v
      · subst hw
        by_cases hm : w ∈ ws <;> simp [distinct, hm] <;> simpa [hm] using ih
      · have hv : v ≠ w := fun h => hw h.symm
        by_cases hm : w ∈ ws <;> simp [distinct, hw, hv, hm] <;>
          simp only [ne_eq, decide_not] at ih <;> omega

theorem distinct_le_of_subset {vs ws : List String} (h : vs ⊆ ws) :
    distinct vs ≤ distinct ws := by
  induction vs generalizing ws with
  | nil => simp [distinct]
  | cons v vs ih =>
      rw [List.cons_subset] at h
      by_cases hv : v ∈ vs
      · simpa [distinct, hv] using ih h.2
      · have hsub : vs ⊆ ws.filter (· ≠ v) := fun w hw =>
          List.mem_filter.2 ⟨h.2 hw, decide_eq_true fun e => hv (e ▸ hw)⟩
        have := ih hsub
        rw [distinct_filter_ne v ws]
        simp only [distinct, hv, h.1, if_true, if_false]
        omega

theorem distinct_lt_of_subset {vs ws : List String} {v : String} (h : vs ⊆ ws) (hv : v ∉ vs)
    (hw : v ∈ ws) : distinct vs < distinct ws := by
  have hcons : (v :: vs) ⊆ ws := List.cons_subset.2 ⟨hw, h⟩
  have := distinct_le_of_subset hcons
  simp only [distinct, hv, if_false] at this
  omega

theorem append_subset_varsAll_cons (t u : Ty) (ts us : List Ty) :
    t.vars ++ u.vars ⊆ Ty.varsAll (t :: ts) ++ Ty.varsAll (u :: us) := by
  intro v hv
  simp only [Ty.varsAll, List.mem_append] at hv ⊢
  rcases hv with hv | hv <;> simp [hv]

/-- `s` binds and introduces only names from `scope`, and no name that it binds
is left after it has been applied. -/
structure Subst.Eliminates (s : Subst) (scope : List String) : Prop where
  binds : ∀ v : String, v ∈ s.bindings → v ∈ scope
  introduces : ∀ v : String, v ∈ scope → (s.image v).vars ⊆ scope
  removes : ∀ v w : String, v ∈ s.bindings → v ∉ (s.image w).vars

namespace Subst

theorem image_of_not_mem {s : Subst} {v : String} (h : v ∉ s.bindings) : s.image v = .var v := by
  simp [image, h]

theorem mem_bindings_compose {second first : Subst} {v : String} :
    v ∈ (second.compose first).bindings ↔ v ∈ first.bindings ∨ v ∈ second.bindings := by
  simp [compose, or_comm]

theorem mem_vars_apply {s : Subst} {t : Ty} {v : String} :
    v ∈ (s.apply t).vars ↔ ∃ w ∈ t.vars, v ∈ (s.image w).vars :=
  Ty.mem_vars_bind

theorem varsAll_map_apply_subset {s : Subst} {scope : List String} (h : s.Eliminates scope)
    {ts : List Ty} (ht : Ty.varsAll ts ⊆ scope) : Ty.varsAll (ts.map s.apply) ⊆ scope := by
  intro v hv
  obtain ⟨_, hu, hv⟩ := Ty.mem_varsAll.1 hv
  obtain ⟨t, hts, rfl⟩ := List.mem_map.1 hu
  obtain ⟨w, hw, hv⟩ := mem_vars_apply.1 hv
  exact h.introduces w (ht (Ty.mem_varsAll.2 ⟨t, hts, hw⟩)) hv

theorem not_mem_varsAll_map_apply {s : Subst} {scope : List String} (h : s.Eliminates scope)
    {v : String} (hv : v ∈ s.bindings) (ts : List Ty) : v ∉ Ty.varsAll (ts.map s.apply) := by
  intro hm
  obtain ⟨_, hu, hm⟩ := Ty.mem_varsAll.1 hm
  obtain ⟨t, -, rfl⟩ := List.mem_map.1 hu
  obtain ⟨w, -, hw⟩ := mem_vars_apply.1 hm
  exact h.removes v w hv hw

theorem Eliminates.empty (scope : List String) : Subst.empty.Eliminates scope where
  binds v hv := by simp [Subst.empty] at hv
  introduces v hv := by simpa [Ty.vars] using hv
  removes v _ hv := by simp [Subst.empty] at hv

theorem Eliminates.single {v : String} {t : Ty} {scope : List String} (hv : v ∈ scope)
    (ht : t.vars ⊆ scope) (h : v ∉ t.vars) : (Subst.single v t).Eliminates scope where
  binds w hw := by
    simp only [Subst.single, Std.ExtTreeMap.mem_insert, Std.compare_eq_iff_eq] at hw
    rcases hw with rfl | hw
    · exact hv
    · simp at hw
  introduces w hw := by
    by_cases e : v = w <;> simp [e, Ty.vars, hw]
    exact ht
  removes u w hu := by
    simp only [Subst.single, Std.ExtTreeMap.mem_insert, Std.compare_eq_iff_eq] at hu
    rcases hu with rfl | hu
    · by_cases e : v = w <;> simp [e, Ty.vars]
      · exact e ▸ h
    · simp at hu

theorem Eliminates.mono {s : Subst} {small large : List String} (h : s.Eliminates small)
    (hsub : small ⊆ large) : s.Eliminates large where
  binds v hv := hsub (h.binds v hv)
  introduces v hv := by
    by_cases hs : v ∈ s.bindings
    · exact fun w hw => hsub (h.introduces v (h.binds v hs) hw)
    · simpa [image_of_not_mem hs, Ty.vars] using hv
  removes := h.removes

theorem Eliminates.compose {second first : Subst} {scope : List String}
    {ts : List Ty} (hf : first.Eliminates scope) (ht : Ty.varsAll ts ⊆ scope)
    (hs : second.Eliminates (Ty.varsAll (ts.map first.apply))) :
    (second.compose first).Eliminates scope where
  binds v hv := by
    rcases mem_bindings_compose.1 hv with hv | hv
    · exact hf.binds v hv
    · exact varsAll_map_apply_subset hf ht (hs.binds v hv)
  introduces v hv := by
    rw [image_compose]
    intro w hw
    obtain ⟨u, hu, hw⟩ := mem_vars_apply.1 hw
    exact (hs.mono (varsAll_map_apply_subset hf ht)).introduces u (hf.introduces v hv hu) hw
  removes v w hv hw := by
    rw [image_compose] at hw
    obtain ⟨u, hu, hw⟩ := mem_vars_apply.1 hw
    rcases mem_bindings_compose.1 hv with hv | hv
    · by_cases hb : u ∈ second.bindings
      · exact not_mem_varsAll_map_apply hf hv ts (hs.introduces u (hs.binds u hb) hw)
      · rw [image_of_not_mem hb] at hw
        simp only [Ty.vars, List.mem_singleton] at hw
        exact hf.removes v w hv (hw ▸ hu)
    · exact hs.removes v u hv hw

/-- Unifying first the heads and then what is left of the tails. -/
theorem Eliminates.append {second first : Subst} {t u : Ty} {ts us : List Ty}
    (hf : first.Eliminates (t.vars ++ u.vars))
    (hs : second.Eliminates
      (Ty.varsAll (ts.map first.apply) ++ Ty.varsAll (us.map first.apply))) :
    (second.compose first).Eliminates (Ty.varsAll (t :: ts) ++ Ty.varsAll (u :: us)) := by
  have hts : Ty.varsAll (ts ++ us) ⊆ Ty.varsAll (t :: ts) ++ Ty.varsAll (u :: us) := by
    intro v hv
    simp only [Ty.varsAll_append, Ty.varsAll, List.mem_append] at hv ⊢
    rcases hv with hv | hv <;> simp [hv]
  refine .compose (hf.mono (append_subset_varsAll_cons t u ts us)) hts ?_
  simpa [Ty.varsAll_append] using hs

end Subst

/-- A substitution that eliminates variables from the given names only. -/
abbrev Elimination (scope : List String) := { s : Subst // s.Eliminates scope }

/-- Binds `v` to `t` unless `t` contains `v`. -/
def bindVar (v : String) (t : Ty) (scope : List String) (hv : v ∈ scope)
    (ht : t.vars ⊆ scope) : Except UnifyError (Elimination scope) :=
  if t = .var v then .ok ⟨.empty, .empty scope⟩
  else if h : v ∈ t.vars then .error (.occurs v t)
  else .ok ⟨.single v t, .single hv ht h⟩

theorem size_pos (t : Ty) : 0 < t.size := by
  cases t <;> simp [Ty.size]

/-- What is left after the first pair has been unified is a smaller problem: in
number of different variables, or else in size. -/
theorem rest_lt {s : Subst} {t u : Ty} {ts us : List Ty}
    (h : s.Eliminates (t.vars ++ u.vars)) :
    Prod.Lex (· < ·) (· < ·)
      (distinct (Ty.varsAll (ts.map s.apply) ++ Ty.varsAll (us.map s.apply)),
        Ty.sizeAll (ts.map s.apply) + Ty.sizeAll (us.map s.apply))
      (distinct (Ty.varsAll (t :: ts) ++ Ty.varsAll (u :: us)),
        Ty.sizeAll (t :: ts) + Ty.sizeAll (u :: us)) := by
  have hfirst : Ty.varsAll ts ⊆ Ty.varsAll (t :: ts) ++ Ty.varsAll (u :: us) := by
    intro v hv
    simp [Ty.varsAll, hv]
  have hsecond : Ty.varsAll us ⊆ Ty.varsAll (t :: ts) ++ Ty.varsAll (u :: us) := by
    intro v hv
    simp [Ty.varsAll, hv]
  by_cases hs : ∃ v, v ∈ s.bindings
  · obtain ⟨v, hv⟩ := hs
    have hscope := h.mono (append_subset_varsAll_cons t u ts us)
    refine .left _ _ (distinct_lt_of_subset ?_ ?_ (hscope.binds v hv))
    · exact List.append_subset.2 ⟨Subst.varsAll_map_apply_subset hscope hfirst,
        Subst.varsAll_map_apply_subset hscope hsecond⟩
    · simp only [List.mem_append, not_or]
      exact ⟨Subst.not_mem_varsAll_map_apply h hv ts, Subst.not_mem_varsAll_map_apply h hv us⟩
  · have himage : s.image = Ty.var := funext fun v => Subst.image_of_not_mem fun hv => hs ⟨v, hv⟩
    have hid : s.apply = id := funext fun t => by rw [Subst.apply, himage, Ty.bind_var, id]
    have hle := distinct_le_of_subset (List.append_subset.2 ⟨hfirst, hsecond⟩)
    have ht := size_pos t
    simp only [hid, List.map_id, Ty.sizeAll] at hle ⊢
    rcases Nat.lt_or_eq_of_le hle with hlt | heq
    · exact .left _ _ hlt
    · rw [heq]
      exact .right _ (by omega)

theorem lex_of_le {d d' n n' k k' : Nat} (hd : d ≤ d') (hn : n ≤ n') (h : n < n' ∨ k < k') :
    Prod.Lex (· < ·) (Prod.Lex (· < ·) (· < ·)) (d, n, k) (d', n', k') := by
  rcases Nat.lt_or_eq_of_le hd with hd | rfl
  · exact .left _ _ hd
  · rcases Nat.lt_or_eq_of_le hn with hn | rfl
    · exact .right _ (.left _ _ hn)
    · exact .right _ (.right _ (h.resolve_left (Nat.lt_irrefl _)))

theorem lex_of_lex {d d' n n' k k' : Nat} (h : Prod.Lex (· < ·) (· < ·) (d, n) (d', n')) :
    Prod.Lex (· < ·) (Prod.Lex (· < ·) (· < ·)) (d, n, k) (d', n', k') := by
  cases h with
  | left _ _ h => exact .left _ _ h
  | right _ h => exact .right _ (.left _ _ h)

mutual

/-- Unifies two types within the names that occur in them. -/
def eliminate (a b : Ty) : Except UnifyError (Elimination (a.vars ++ b.vars)) :=
  match a, b with
  | .var v, t => bindVar v t _ (by simp [Ty.vars]) (by simp)
  | t, .var v => bindVar v t _ (by simp [Ty.vars]) (by simp)
  | .fn a r, .fn b q =>
      match eliminateAll [a, r] [b, q] with
      | .error e => .error e
      | .ok s => .ok ⟨s.1, by simpa [Ty.vars, Ty.varsAll] using s.2⟩
  | .con c ts, .con d us =>
      if c ≠ d then .error (.mismatch (.con c ts) (.con d us))
      else if ts.length ≠ us.length then .error (.arity (.con c ts) (.con d us))
      else eliminateAll ts us
  | t, u => .error (.mismatch t u)
  termination_by (distinct (a.vars ++ b.vars), a.size + b.size, 0)
  decreasing_by
    · refine lex_of_le (by simp [Ty.vars, Ty.varsAll]) ?_ (.inl ?_) <;>
        simp only [Ty.size, Ty.sizeAll] <;> omega
    · refine lex_of_le (by simp [Ty.vars]) ?_ (.inl ?_) <;> simp only [Ty.size] <;> omega

/-- Unifies two lists pairwise, up to the length of the shorter. -/
def eliminateAll (ts us : List Ty) :
    Except UnifyError (Elimination (Ty.varsAll ts ++ Ty.varsAll us)) :=
  match ts, us with
  | t :: ts, u :: us =>
      match eliminate t u with
      | .error e => .error e
      | .ok first =>
          match eliminateAll (ts.map first.1.apply) (us.map first.1.apply) with
          | .error e => .error e
          | .ok second => .ok 
              ⟨second.1.compose first.1, .append first.2 second.2⟩
  | _, _ => .ok ⟨.empty, .empty _⟩
  termination_by (distinct (Ty.varsAll ts ++ Ty.varsAll us), Ty.sizeAll ts + Ty.sizeAll us, 1)
  decreasing_by
    · refine lex_of_le (distinct_le_of_subset (append_subset_varsAll_cons t u ts us)) ?_
        (.inr Nat.zero_lt_one)
      simp only [Ty.sizeAll]
      omega
    · exact lex_of_lex (rest_lt first.2)

end

/-- The most general substitution that makes `a` and `b` equal. Of two variables
the left one is bound. -/
def unify (a b : Ty) : Except UnifyError Subst :=
  (eliminate a b).map (·.1)

/-- Unifies the pairs of two lists from left to right. -/
def unifyAll (ts us : List Ty) : Except UnifyError Subst :=
  (eliminateAll ts us).map (·.1)

theorem unifyAll_cons (t u : Ty) (ts us : List Ty) :
    unifyAll (t :: ts) (u :: us) = do
      let first ← unify t u
      let second ← unifyAll (ts.map first.apply) (us.map first.apply)
      return second.compose first := by
  rw [unifyAll, eliminateAll, unify]
  cases eliminate t u with
  | error e => rfl
  | ok first =>
      simp only [unifyAll]
      cases h : eliminateAll (ts.map first.1.apply) (us.map first.1.apply) <;>
        simp [Except.map, bind, Except.bind, h, pure, Except.pure]

theorem unifyAll_nil_left (us : List Ty) : unifyAll [] us = .ok .empty := by
  rw [unifyAll, eliminateAll]
  · rfl
  · simp

theorem unifyAll_nil_right (ts : List Ty) : unifyAll ts [] = .ok .empty := by
  rw [unifyAll, eliminateAll]
  · rfl
  · simp

theorem bindVar_map (v : String) (t : Ty) (scope : List String) (hv : v ∈ scope)
    (ht : t.vars ⊆ scope) :
    (bindVar v t scope hv ht).map (·.1) =
      if t = .var v then .ok .empty
      else if v ∈ t.vars then .error (.occurs v t)
      else .ok (.single v t) := by
  unfold bindVar
  by_cases he : t = .var v
  · simp [he, Except.map]
  · by_cases hm : v ∈ t.vars <;> simp [he, hm, Except.map]

theorem unify_var_left (v : String) (t : Ty) :
    unify (.var v) t =
      if t = .var v then .ok .empty
      else if v ∈ t.vars then .error (.occurs v t)
      else .ok (.single v t) := by
  rw [unify, eliminate]
  exact bindVar_map ..

theorem unify_var_right (v : String) (t : Ty) (h : t.isVar = false) :
    unify t (.var v) =
      if v ∈ t.vars then .error (.occurs v t) else .ok (.single v t) := by
  cases t with
  | var => simp [Ty.isVar] at h
  | con c ts | fn a r =>
      rw [unify, eliminate]
      · exact (bindVar_map ..).trans (by simp)
      · simp

theorem unify_fn (a r b q : Ty) :
    unify (.fn a r) (.fn b q) = unifyAll [a, r] [b, q] := by
  rw [unify, eliminate, unifyAll]
  cases eliminateAll [a, r] [b, q] <;> rfl

theorem unify_con (c d : String) (ts us : List Ty) :
    unify (.con c ts) (.con d us) =
      if c ≠ d then .error (.mismatch (.con c ts) (.con d us))
      else if ts.length ≠ us.length then .error (.arity (.con c ts) (.con d us))
      else unifyAll ts us := by
  rw [unify, eliminate, unifyAll]
  by_cases hc : c = d
  · by_cases hl : ts.length = us.length
    · simp only [hc, hl, ne_eq, not_true_eq_false, if_false]
      rfl
    · simp [hc, hl, Except.map]
  · simp [hc, Except.map]

theorem unify_con_fn (c : String) (ts : List Ty) (a r : Ty) :
    unify (.con c ts) (.fn a r) = .error (.mismatch (.con c ts) (.fn a r)) := by
  rw [unify, eliminate] <;> simp [Except.map]

theorem unify_fn_con (c : String) (ts : List Ty) (a r : Ty) :
    unify (.fn a r) (.con c ts) = .error (.mismatch (.fn a r) (.con c ts)) := by
  rw [unify, eliminate] <;> simp [Except.map]

end Plugboard
