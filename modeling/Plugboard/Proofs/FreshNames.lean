import Plugboard.Env
import Plugboard.Proofs.PoolIndex

/-!
# Fresh names

A pool whose entries have different names, each with its place in the index, hands out only names
that were not in use, and an instance of a scheme puts a different such name in place of each
quantified one. That is all that allocation needs of a pool, and every pool that comes about from a
new one has it.
-/

namespace Plugboard

namespace VarPool

variable {pool pool' : VarPool}

theorem takeUnused_append {before after : List PoolEntry} {e : PoolEntry}
    (hbefore : ∀ x ∈ before, x.used = true) (he : e.used = false) :
    takeUnused (before ++ e :: after) =
      some (e.name, before ++ { e with used := true } :: after) := by
  induction before with
  | nil => simp [takeUnused, he]
  | cons x before ih =>
      rw [List.forall_mem_cons] at hbefore
      simp [takeUnused, hbefore.1, ih hbefore.2]

theorem takeUnused_of_all_used {entries : List PoolEntry} (h : ∀ e ∈ entries, e.used = true) :
    takeUnused entries = none := by
  induction entries with
  | nil => rfl
  | cons e entries ih =>
      rw [List.forall_mem_cons] at h
      simp [takeUnused, h.1, ih h.2]

theorem allocate_of_unused {before after : List PoolEntry} {e : PoolEntry}
    (hentries : pool.entries = before ++ e :: after) (hbefore : ∀ x ∈ before, x.used = true)
    (he : e.used = false) :
    pool.allocate =
      (e.name, { pool with entries := before ++ { e with used := true } :: after }) := by
  rw [allocate, hentries, takeUnused_append hbefore he]

theorem allocate_of_all_used (h : ∀ e ∈ pool.entries, e.used = true) :
    pool.allocate = (toString (pool.freeNumeral pool.nextNumeral),
      { pool.register (toString (pool.freeNumeral pool.nextNumeral)) pool.fallbackColour true with
        nextNumeral := pool.freeNumeral pool.nextNumeral + 1 }) := by
  rw [allocate, takeUnused_of_all_used h]

theorem all_used_or_exists_first_unused (entries : List PoolEntry) :
    (∀ e ∈ entries, e.used = true) ∨ ∃ before e after, entries = before ++ e :: after ∧
      (∀ x ∈ before, x.used = true) ∧ e.used = false := by
  cases hfind : entries.find? (! ·.used) with
  | none => exact .inl (by simpa using hfind)
  | some e =>
      obtain ⟨he, before, after, hentries, hbefore⟩ := List.find?_eq_some_iff_append.1 hfind
      exact .inr ⟨before, e, after, hentries, by simpa using hbefore, by simpa using he⟩

/-- The search for a numeral takes the first one that is free. -/
theorem freeNumeral_spec (pool : VarPool) (n : Nat) :
    pool.place? (toString (pool.freeNumeral n)) = none ∧ n ≤ pool.freeNumeral n ∧
      ∀ m, n ≤ m → m < pool.freeNumeral n → (pool.place? (toString m)).isSome := by
  fun_induction freeNumeral pool n with
  | case1 n hmem ih =>
      refine ⟨ih.1, Nat.le_of_succ_le ih.2.1, fun m hm hlt => ?_⟩
      rcases Nat.eq_or_lt_of_le hm with rfl | hm
      · exact hmem
      · exact ih.2.2 m hm hlt
  | case2 n hfree =>
      refine ⟨Option.not_isSome_iff_eq_none.1 hfree, Nat.le_refl n, fun m hm hlt => ?_⟩
      exact absurd hlt (Nat.not_lt.2 hm)

/-- A name has been handed out that was not in use, and nothing else has changed its use. -/
structure Issues (pool : VarPool) (name : String) (pool' : VarPool) : Prop where
  fresh : pool.isUsed name = false
  distinct : pool'.Distinct
  isUsed_iff : ∀ v, pool'.isUsed v ↔ v = name ∨ pool.isUsed v

namespace Issues

variable {pool pool' : VarPool} {name : String}

theorem used (h : pool.Issues name pool') : pool'.isUsed name :=
  (h.isUsed_iff name).2 (.inl rfl)

theorem keeps (h : pool.Issues name pool') {v : String} (hv : pool.isUsed v) : pool'.isUsed v :=
  (h.isUsed_iff v).2 (.inr hv)

theorem ne_of_used (h : pool.Issues name pool') {v : String} (hv : pool.isUsed v) : v ≠ name := by
  intro heq
  rw [heq, h.fresh] at hv
  cases hv

/-- A fresh name can be given any value without changing those of the names in use. -/
theorem exists_extension (h : pool.Issues name pool') (r : String → Ty) (t : Ty) :
    ∃ q : String → Ty, q name = t ∧ ∀ v, pool.isUsed v → q v = r v :=
  ⟨fun v => if v = name then t else r v, if_pos rfl, fun _ hv => if_neg (h.ne_of_used hv)⟩

end Issues

theorem allocate_issues (h : pool.Distinct) : pool.Issues pool.allocate.1 pool.allocate.2 := by
  rcases all_used_or_exists_first_unused pool.entries with hall | hfirst
  · have hnew : toString (pool.freeNumeral pool.nextNumeral) ∉ pool.names :=
      fun hmem => Option.not_isSome_iff_eq_none.2 (freeNumeral_spec pool _).1
        (h.isSome_place?.2 hmem)
    have hdistinct : Distinct { pool.register (toString (pool.freeNumeral pool.nextNumeral))
        pool.fallbackColour true with nextNumeral := pool.freeNumeral pool.nextNumeral + 1 } :=
      (h.register hnew pool.fallbackColour true).of_names rfl rfl
    rw [allocate_of_all_used hall]
    exact ⟨Bool.eq_false_iff.2 fun hused => hnew (mem_names_of_isUsed h hused), hdistinct,
      isUsed_register h hnew pool.fallbackColour⟩
  · obtain ⟨before, e, after, hentries, hbefore, hfree⟩ := hfirst
    have hdistinct : Distinct { pool with
        entries := before ++ { e with used := true } :: after } :=
      h.of_names (by simp [names, hentries]) rfl
    rw [allocate_of_unused hentries hbefore hfree]
    refine ⟨?_, hdistinct, fun v => ?_⟩
    · have hiff := isUsed_name_iff h (show e ∈ pool.entries by simp [hentries])
      rwa [hfree, iff_false_right Bool.false_ne_true, Bool.not_eq_true] at hiff
    · rw [isUsed_iff hdistinct, isUsed_iff h, hentries]
      simp only [List.mem_append, List.mem_cons]
      constructor
      · rintro ⟨e', hmem | rfl | hmem, rfl, hused⟩
        · exact .inr ⟨e', .inl hmem, rfl, hused⟩
        · exact .inl rfl
        · exact .inr ⟨e', .inr (.inr hmem), rfl, hused⟩
      · rintro (rfl | ⟨e', hmem | rfl | hmem, rfl, hused⟩)
        · exact ⟨_, .inr (.inl rfl), rfl, rfl⟩
        · exact ⟨e', .inl hmem, rfl, hused⟩
        · exact ⟨_, .inr (.inl rfl), rfl, rfl⟩
        · exact ⟨e', .inr (.inr hmem), rfl, hused⟩

/-- The pools that come about from new ones. -/
inductive Reachable : VarPool → Prop
  | new (fallback : String) : Reachable (withColour fallback)
  | allocate {pool : VarPool} (h : Reachable pool) : Reachable pool.allocate.2
  | release {pool : VarPool} (name : String) (h : Reachable pool) :
      Reachable (pool.release name).2
  | reserve {pool : VarPool} (name : String) (h : Reachable pool) : Reachable (pool.reserve name)
  | reserveTy {pool : VarPool} (t : Ty) (h : Reachable pool) : Reachable (pool.reserveTy t)
  | releaseAll {pool : VarPool} (h : Reachable pool) : Reachable pool.releaseAll
  | collect {pool : VarPool} (roots : List Ty) (h : Reachable pool) :
      Reachable (pool.collect roots)

theorem Reachable.distinct {pool : VarPool} (h : pool.Reachable) : pool.Distinct := by
  induction h with
  | new fallback => exact distinct_withColour fallback
  | allocate _ ih => exact (allocate_issues ih).distinct
  | release name _ ih => exact ih.release name
  | reserve name _ ih => exact ih.reserve name
  | reserveTy t _ ih => exact ih.reserveTy t
  | releaseAll _ ih => exact ih.releaseAll
  | collect roots _ ih => exact ih.collect roots

end VarPool

namespace Subst

theorem image_ofList_nil (v : String) : (ofList []).image v = .var v :=
  image_empty v

/-- A binding that is repeated later on in the list does not count. -/
theorem image_ofList_cons (w : String) (t : Ty) (pairs : List (String × Ty)) (v : String) :
    (ofList ((w, t) :: pairs)).image v =
      if v ∈ pairs.map Prod.fst then (ofList pairs).image v
      else if w = v then t else .var v := by
  have htail : (ofList pairs).bindings[v]? = pairs.findSomeRev? fun p =>
      if compare p.1 v = .eq then some p.2 else none := by
    rw [ofList, Std.ExtTreeMap.ofList_eq_insertMany_empty, Std.ExtTreeMap.getElem?_insertMany_list]
    simp
  have hcons : (ofList ((w, t) :: pairs)).bindings[v]? =
      (ofList pairs).bindings[v]?.or (if w = v then some t else none) := by
    rw [htail, ofList, Std.ExtTreeMap.ofList_cons, Std.ExtTreeMap.getElem?_insertMany_list,
      Std.ExtTreeMap.getElem?_insert]
    simp
  rw [image, hcons, image]
  by_cases hv : v ∈ pairs.map Prod.fst
  · have hmem : v ∈ (ofList pairs).bindings := by
      rw [ofList, Std.ExtTreeMap.mem_ofList]
      simpa using hv
    rw [if_pos hv, Std.ExtTreeMap.getElem?_eq_some_getElem hmem]
    rfl
  · have hnone : (ofList pairs).bindings[v]? = none := by
      rw [ofList, Std.ExtTreeMap.getElem?_ofList_of_contains_eq_false]
      simpa using hv
    rw [if_neg hv, hnone, Option.none_or]
    by_cases hw : w = v <;> simp [hw]

end Subst

namespace Scheme

/-- A different fresh variable has taken the place of each of some names, and a pool has
given them all out. -/
structure Renews (vs : List String) (pool : VarPool) (f : String → Ty) (pool' : VarPool) :
    Prop where
  away : ∀ v, v ∉ vs → f v = .var v
  fresh : ∀ v ∈ vs, ∃ w, f v = .var w ∧ pool.isUsed w = false ∧ pool'.isUsed w
  injective : ∀ v ∈ vs, ∀ w ∈ vs, f v = f w → v = w
  distinct : pool'.Distinct
  keeps : ∀ v, pool.isUsed v → pool'.isUsed v

theorem map_fst_freshNames (vs : List String) (pool : VarPool) :
    (freshNames vs pool).1.map Prod.fst = vs := by
  induction vs generalizing pool with
  | nil => rfl
  | cons v vs ih => rw [freshNames, List.map_cons, ih]

theorem freshNames_renews (vs : List String) {pool : VarPool} (h : pool.Distinct) :
    Renews vs pool (Subst.ofList (freshNames vs pool).1).image (freshNames vs pool).2 := by
  induction vs generalizing pool with
  | nil =>
      refine ⟨fun v _ => Subst.image_ofList_nil v, ?_, ?_, h, fun _ => id⟩
      · intro v hv
        cases hv
      · intro v hv
        cases hv
  | cons v vs ih =>
      have hissues := VarPool.allocate_issues h
      have hrest := ih hissues.distinct
      simp only [freshNames]
      generalize hpairs : freshNames vs pool.allocate.2 = out at hrest
      have hfst : out.1.map Prod.fst = vs := by rw [← hpairs, map_fst_freshNames]
      -- the name of a later place wins, so only a name that is not repeated gets this variable
      have himage : ∀ w, (Subst.ofList ((v, .var pool.allocate.1) :: out.1)).image w =
          if w ∈ vs then (Subst.ofList out.1).image w
          else if v = w then .var pool.allocate.1 else .var w := by
        intro w
        rw [Subst.image_ofList_cons, hfst]
      have hhead : v ∉ vs →
          (Subst.ofList ((v, .var pool.allocate.1) :: out.1)).image v = .var pool.allocate.1 :=
        fun hv => by rw [himage, if_neg hv, if_pos rfl]
      have hlater : ∀ w ∈ vs, (Subst.ofList out.1).image w ≠ .var pool.allocate.1 := by
        intro w hw heq
        obtain ⟨u, hu, hunused, -⟩ := hrest.fresh w hw
        obtain rfl : u = pool.allocate.1 := by simpa [hu] using heq
        have hused := hissues.used
        rw [hunused] at hused
        cases hused
      refine ⟨fun w hw => ?_, fun w hw => ?_, fun w hw u hu heq => ?_, hrest.distinct,
        fun w hw => hrest.keeps w (hissues.keeps hw)⟩
      · rw [List.mem_cons, not_or] at hw
        rw [himage, if_neg hw.2, if_neg fun e => hw.1 e.symm]
      · by_cases hmem : w ∈ vs
        · obtain ⟨u, hu, hunused, hused⟩ := hrest.fresh w hmem
          refine ⟨u, by rw [himage, if_pos hmem, hu], ?_, hused⟩
          rw [← Bool.not_eq_true]
          intro hold
          rw [hissues.keeps hold] at hunused
          cases hunused
        · obtain rfl := (List.mem_cons.1 hw).resolve_right hmem
          exact ⟨_, hhead hmem, hissues.fresh,
            hrest.keeps _ hissues.used⟩
      · by_cases hw' : w ∈ vs
        · by_cases hu' : u ∈ vs
          · rw [himage, himage, if_pos hw', if_pos hu'] at heq
            exact hrest.injective w hw' u hu' heq
          · obtain rfl := (List.mem_cons.1 hu).resolve_right hu'
            rw [himage, if_pos hw', hhead hu'] at heq
            exact (hlater w hw' heq).elim
        · obtain rfl := (List.mem_cons.1 hw).resolve_right hw'
          by_cases hu' : u ∈ vs
          · rw [hhead hw', himage, if_pos hu'] at heq
            exact (hlater u hu' heq.symm).elim
          · exact ((List.mem_cons.1 hu).resolve_right hu').symm

/-- Values for old variables and for the renewed ones never get into conflict. -/
theorem Renews.exists_extension {vs : List String} {pool pool' : VarPool} {f : String → Ty}
    (h : Renews vs pool f pool') (old new : String → Ty) :
    ∃ q : String → Ty, (∀ v, pool.isUsed v → q v = old v) ∧ ∀ v ∈ vs, (f v).bind q = new v := by
  classical
  refine ⟨fun w => if pool.isUsed w then old w
    else if hw : ∃ v ∈ vs, f v = .var w then new hw.choose else .var w, ?_, ?_⟩
  · intro v hv
    exact if_pos hv
  · intro v hv
    obtain ⟨w, hw, hunused, -⟩ := h.fresh v hv
    have hex : ∃ u ∈ vs, f u = .var w := ⟨v, hv, hw⟩
    have hsame : hex.choose = v :=
      h.injective _ hex.choose_spec.1 v hv (hex.choose_spec.2.trans hw.symm)
    rw [hw, Ty.bind, if_neg (by simp [hunused]), dif_pos hex, hsame]

/-- The map that instantiating a scheme applies to its body. -/
def renewal (scheme : Scheme) (pool : VarPool) : String → Ty :=
  (Subst.ofList (freshNames scheme.vars pool).1).image

theorem instantiate_fst (scheme : Scheme) (pool : VarPool) :
    (scheme.instantiate pool).1 = scheme.body.bind (scheme.renewal pool) := rfl

theorem renewal_renews (scheme : Scheme) {pool : VarPool} (h : pool.Distinct) :
    Renews scheme.vars pool (scheme.renewal pool) (scheme.instantiate pool).2 :=
  freshNames_renews scheme.vars h

end Scheme

end Plugboard
