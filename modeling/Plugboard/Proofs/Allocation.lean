import Mathlib.Data.Finset.Card
import Mathlib.Tactic.Tauto
import Plugboard.Proofs.FreshNames
import Plugboard.Proofs.SchemeInstance

/-!
# Allocation and collection

What is allocated from a pool, one name after the other, are different names that were not in use,
and all that was in use stays so. A collection leaves in use just the variables of the types that
it is given, and its census counts them.
-/

namespace Plugboard

/-- All variables of a type are in a scope. -/
def Ty.Over (scope : String → Prop) (t : Ty) : Prop := ∀ v ∈ t.vars, scope v

namespace Ty.Over

variable {scope scope' : String → Prop} {t u : Ty}

theorem mono (h : t.Over scope) (hsub : ∀ v, scope v → scope' v) : t.Over scope' :=
  fun v hv => hsub v (h v hv)

theorem var {v : String} (h : scope v) : (Ty.var v).Over scope := by
  intro w hw
  rwa [mem_vars_var.1 hw]

theorem fn_iff : (Ty.fn t u).Over scope ↔ t.Over scope ∧ u.Over scope := by
  simp only [Over, vars, List.mem_append, or_imp, forall_and]

theorem con_iff {c : String} {ts : List Ty} :
    (Ty.con c ts).Over scope ↔ ∀ t ∈ ts, t.Over scope := by
  simp only [Over, vars, mem_varsAll, forall_exists_index, and_imp]
  exact ⟨fun h t ht v hv => h v t ht hv, fun h v t ht hv => h t ht v hv⟩

theorem list (h : t.Over scope) : t.list.Over scope := by
  simpa [Ty.list, con_iff] using h

theorem bool : Ty.bool.Over scope := by simp [Ty.bool, base, con_iff]

theorem curried_iff {ts : List Ty} :
    (Ty.curried ts t).Over scope ↔ (∀ u ∈ ts, u.Over scope) ∧ t.Over scope := by
  induction ts with
  | nil => simp [Ty.curried]
  | cons u us ih =>
      rw [List.forall_mem_cons, and_assoc, ← ih]
      exact fn_iff

theorem uncurry (h : t.Over scope) (limit : Nat) :
    (∀ u ∈ (t.uncurry limit).1, u.Over scope) ∧ (t.uncurry limit).2.Over scope := by
  induction limit generalizing t with
  | zero => exact ⟨fun u hu => (List.not_mem_nil hu).elim, h⟩
  | succ limit ih =>
      cases t with
      | fn arg result =>
          rw [fn_iff] at h
          exact ⟨List.forall_mem_cons.2 ⟨h.1, (ih h.2).1⟩, (ih h.2).2⟩
      | var v => exact ⟨fun u hu => (List.not_mem_nil hu).elim, h⟩
      | con c ts => exact ⟨fun u hu => (List.not_mem_nil hu).elim, h⟩

end Ty.Over

namespace VarPool

variable {pool pool' pool'' : VarPool} {names : List String}

/-- The names are handed out one after the other. -/
inductive Allocates : VarPool → List String → VarPool → Prop
  | nil (pool : VarPool) : Allocates pool [] pool
  | cons {pool pool' : VarPool} {names : List String} (h : Allocates pool.allocate.2 names pool') :
      Allocates pool (pool.allocate.1 :: names) pool'

namespace Allocates

theorem distinct (h : pool.Allocates names pool') (hpool : pool.Distinct) : pool'.Distinct := by
  induction h with
  | nil => exact hpool
  | cons _ ih => exact ih (allocate_issues hpool).distinct

theorem isUsed_iff (h : pool.Allocates names pool') (hpool : pool.Distinct) (v : String) :
    pool'.isUsed v ↔ v ∈ names ∨ pool.isUsed v := by
  induction h with
  | nil => simp
  | cons _ ih =>
      have hissues := allocate_issues hpool
      rw [ih hissues.distinct, hissues.isUsed_iff, List.mem_cons]
      tauto

theorem not_isUsed (h : pool.Allocates names pool') (hpool : pool.Distinct) :
    ∀ v ∈ names, ¬ pool.isUsed v := by
  induction h with
  | nil => exact fun v hv => (List.not_mem_nil hv).elim
  | cons _ ih =>
      have hissues := allocate_issues hpool
      refine List.forall_mem_cons.2 ⟨by simp [hissues.fresh], fun v hv hused => ?_⟩
      exact ih hissues.distinct v hv (hissues.keeps hused)

theorem append {names' : List String} (h : pool.Allocates names pool')
    (h' : pool'.Allocates names' pool'') : pool.Allocates (names ++ names') pool'' := by
  induction h with
  | nil => exact h'
  | cons _ ih => exact .cons (ih h')

end Allocates

/-- Nothing has happened to the pool but allocations. -/
def Extended (pool pool' : VarPool) : Prop := ∃ names, pool.Allocates names pool'

namespace Extended

theorem refl (pool : VarPool) : pool.Extended pool := ⟨[], .nil pool⟩

theorem allocate (pool : VarPool) : pool.Extended pool.allocate.2 := ⟨_, .cons (.nil _)⟩

theorem trans (h : pool.Extended pool') (h' : pool'.Extended pool'') : pool.Extended pool'' :=
  let ⟨_, h⟩ := h
  let ⟨_, h'⟩ := h'
  ⟨_, h.append h'⟩

theorem distinct (h : pool.Extended pool') (hpool : pool.Distinct) : pool'.Distinct :=
  let ⟨_, h⟩ := h
  h.distinct hpool

theorem keeps (h : pool.Extended pool') (hpool : pool.Distinct) {v : String}
    (hv : pool.isUsed v) : pool'.isUsed v :=
  let ⟨_, h⟩ := h
  (h.isUsed_iff hpool v).2 (.inr hv)

end Extended

end VarPool

namespace Scheme

theorem freshNames_extended (vs : List String) (pool : VarPool) :
    pool.Extended (freshNames vs pool).2 := by
  induction vs generalizing pool with
  | nil => exact .refl pool
  | cons v vs ih => exact (VarPool.Extended.allocate pool).trans (ih pool.allocate.2)

/-- An instance of a closed scheme has only variables that have been allocated for it. -/
theorem instantiate_over {scheme : Scheme} (h : scheme.Closed) {pool : VarPool}
    (hpool : pool.Distinct) :
    (scheme.instantiate pool).1.Over fun v =>
      ¬ pool.isUsed v ∧ (scheme.instantiate pool).2.isUsed v := by
  have hrenews := scheme.renewal_renews hpool
  intro w hw
  rw [instantiate_fst, Ty.mem_vars_bind] at hw
  obtain ⟨v, hv, hw⟩ := hw
  have hq : v ∈ scheme.vars := by
    by_contra hq
    exact h v ⟨hv, hq⟩
  obtain ⟨u, hu, hunused, hused⟩ := hrenews.fresh v hq
  rw [hu] at hw
  rw [Ty.mem_vars_var.1 hw]
  exact ⟨by simp [hunused], hused⟩

theorem closed_closed (t : Ty) : (closed t).Closed := by
  intro v hv
  rw [← mem_freeVars, freeVars, closed] at hv
  simp at hv

end Scheme

namespace VarPool

variable {pool : VarPool}

theorem isUsed_setUsed (h : pool.Distinct) {name : String} (hname : name ∈ pool.names)
    (v : String) : (pool.setUsed name true).isUsed v ↔ v = name ∨ pool.isUsed v := by
  rw [isUsed_iff (h.setUsed name true), isUsed_iff h, entries_setUsed h]
  simp only [List.mem_map]
  constructor
  · rintro ⟨_, ⟨e, he, rfl⟩, hv, hused⟩
    by_cases hsame : e.name = name
    · rw [if_pos hsame] at hv
      exact .inl (hv.symm.trans hsame)
    · rw [if_neg hsame] at hv hused
      exact .inr ⟨e, he, hv, hused⟩
  · rintro (rfl | ⟨e, he, rfl, hused⟩)
    · obtain ⟨e, he, rfl⟩ := List.mem_map.1 hname
      exact ⟨_, ⟨e, he, rfl⟩, by simp, by simp⟩
    · refine ⟨_, ⟨e, he, rfl⟩, ?_, ?_⟩ <;> split <;> simp [hused]

theorem isUsed_reserve (h : pool.Distinct) (name v : String) :
    (pool.reserve name).isUsed v ↔ v = name ∨ pool.isUsed v := by
  unfold reserve
  split
  next hmem => exact isUsed_setUsed h (h.isSome_place?.1 hmem) v
  next hnew => exact isUsed_register h (fun hmem => hnew (h.isSome_place?.2 hmem)) _ v

theorem isUsed_reserveTy (h : pool.Distinct) (t : Ty) (v : String) :
    (pool.reserveTy t).isUsed v ↔ v ∈ t.vars ∨ pool.isUsed v := by
  have hmem : v ∈ t.vars ↔ v ∈ t.freeVars.toList := by
    rw [Std.ExtTreeSet.mem_toList, Ty.freeVars, Std.ExtTreeSet.mem_ofList]
    simp
  rw [hmem, reserveTy]
  clear hmem
  induction t.freeVars.toList generalizing pool with
  | nil => simp
  | cons w ws ih =>
      refine (ih (h.reserve w)).trans ?_
      rw [isUsed_reserve h, List.mem_cons]
      tauto

theorem isUsed_releaseAll (h : pool.Distinct) (v : String) : ¬ pool.releaseAll.isUsed v := by
  rw [isUsed_iff h.releaseAll, releaseAll]
  simp

/-- A collection leaves in use what occurs in the types, and nothing else. -/
theorem isUsed_collect (h : pool.Distinct) (roots : List Ty) (v : String) :
    (pool.collect roots).isUsed v ↔ ∃ t ∈ roots, v ∈ t.vars := by
  have hfold : ∀ {pool : VarPool}, pool.Distinct →
      ((roots.foldl reserveTy pool).isUsed v ↔ (∃ t ∈ roots, v ∈ t.vars) ∨ pool.isUsed v) := by
    intro pool h
    induction roots generalizing pool with
    | nil => simp
    | cons t ts ih =>
        rw [List.foldl_cons, ih (h.reserveTy t), isUsed_reserveTy h]
        simp only [List.mem_cons, exists_eq_or_imp]
        rw [or_left_comm, or_assoc]
  rw [collect, hfold h.releaseAll, or_iff_left (isUsed_releaseAll h v)]

/-- The census of a pool counts its names in use. -/
theorem usedCount_eq_card (h : pool.Distinct) {names : Finset String}
    (hnames : ∀ v, v ∈ names ↔ pool.isUsed v) : pool.usedCount = names.card := by
  have hnodup : ((pool.entries.filter (·.used)).map (·.name)).Nodup :=
    h.nodup.sublist (List.filter_sublist.map _)
  have hset : ((pool.entries.filter (·.used)).map (·.name)).toFinset = names := by
    ext v
    rw [hnames, isUsed_iff h]
    simp only [List.mem_toFinset, List.mem_map, List.mem_filter]
    exact ⟨fun ⟨e, ⟨he, hused⟩, hv⟩ => ⟨e, he, hv, hused⟩,
      fun ⟨e, he, hv, hused⟩ => ⟨e, ⟨he, hused⟩, hv⟩⟩
  rw [← hset, List.toFinset_card_of_nodup hnodup, List.length_map, usedCount,
    List.countP_eq_length_filter]

end VarPool

end Plugboard
