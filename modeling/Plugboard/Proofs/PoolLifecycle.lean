import Mathlib
import Plugboard.Proofs.Allocation

/-!
# The life cycle of a pool

An entry that a pool has once registered stays in its place, with its name and its colour, and
only its flag goes up and down. An allocation raises the flag of the first unused entry, or adds
an entry for a numeral when there is none. A collection lowers all flags and raises those of the
variables it meets, adopting the names that are new to the pool, so that the same collection finds
nothing to do the second time.
-/

namespace Plugboard

namespace VarPool

variable {pool pool' pool'' : VarPool}

/-! ### Allocation -/

/-- A numeral is found before the entries run out: each that is passed over names one. -/
theorem freeNumeral_le (h : pool.Distinct) (n : Nat) : pool.freeNumeral n ≤ n + pool.size := by
  obtain ⟨-, hle, hpassed⟩ := freeNumeral_spec pool n
  let passed := (List.range' n (pool.freeNumeral n - n)).map toString
  have hsub : passed ⊆ pool.names := by
    intro v hv
    obtain ⟨m, hm, rfl⟩ := List.mem_map.1 hv
    rw [List.mem_range'_1] at hm
    exact h.isSome_place?.1 (hpassed m hm.1 (by omega))
  have hnodup : passed.Nodup :=
    List.Nodup.map (fun _ _ heq => Nat.repr_injective heq) List.nodup_range'
  have hlength := (List.subperm_of_subset hnodup hsub).length_le
  simp only [passed, names, List.length_map, List.length_range'] at hlength
  rw [size]
  omega

/-- What an allocation does to a pool. -/
structure HandsOut (pool : VarPool) (name : String) (pool' : VarPool) : Prop where
  fresh : pool.isUsed name = false
  used : pool'.isUsed name = true
  /-- Every other entry stays in its place as it was. -/
  others : ∀ (i : Nat) (e : PoolEntry), pool.entries[i]? = some e → e.name ≠ name →
    pool'.entries[i]? = some e
  /-- The first unused entry is handed out if there is one. -/
  reuses : ∀ before e after, pool.entries = before ++ e :: after →
    (∀ x ∈ before, x.used = true) → e.used = false →
      name = e.name ∧ pool' = { pool with entries := before ++ { e with used := true } :: after }
  /-- Otherwise it is the first numeral, from the counter on, that is no entry's name. -/
  grows : (∀ e ∈ pool.entries, e.used = true) → ∃ n, name = toString n ∧
    pool.nextNumeral ≤ n ∧ n ≤ pool.nextNumeral + pool.size ∧ toString n ∉ pool.names ∧
      (∀ m, pool.nextNumeral ≤ m → m < n → toString m ∈ pool.names) ∧
        pool' = { pool.register name pool.fallbackColour true with nextNumeral := n + 1 }

theorem Distinct.handsOut (h : pool.Distinct) : pool.HandsOut pool.allocate.1 pool.allocate.2 where
  fresh := (allocate_issues h).fresh
  used := (allocate_issues h).used
  others i e he hne := by
    rcases all_used_or_exists_first_unused pool.entries with hall | hfirst
    · have hi := (List.getElem?_eq_some_iff.1 he).1
      rw [allocate_of_all_used hall, VarPool.register, List.getElem?_append_left hi]
      exact he
    · obtain ⟨before, x, after, hentries, hbefore, hx⟩ := hfirst
      rw [allocate_of_unused hentries hbefore hx] at hne ⊢
      have hset : before ++ { x with used := true } :: after =
          pool.entries.set before.length { x with used := true } := by simp [hentries]
      have hi : before.length ≠ i := by
        rintro rfl
        have hx : pool.entries[before.length]? = some x := by simp [hentries]
        rw [hx, Option.some.injEq] at he
        exact hne (he ▸ rfl)
      rw [hset, List.getElem?_set_ne hi]
      exact he
  reuses before e after hentries hbefore he := by
    rw [allocate_of_unused hentries hbefore he]
    exact ⟨rfl, rfl⟩
  grows hall := by
    obtain ⟨hfree, hle, hpassed⟩ := freeNumeral_spec pool pool.nextNumeral
    rw [allocate_of_all_used hall]
    refine ⟨_, rfl, hle, freeNumeral_le h _, fun hmem => ?_, fun m hm hlt => ?_, rfl⟩
    · exact Option.not_isSome_iff_eq_none.2 hfree (h.isSome_place?.2 hmem)
    · exact h.isSome_place?.1 (hpassed m hm hlt)

/-! ### Collection -/

/-- A pool that has been changed in its flags only. -/
structure Reflagged (pool pool' : VarPool) : Prop where
  labels : pool'.labels = pool.labels
  index : pool'.index = pool.index
  nextNumeral : pool'.nextNumeral = pool.nextNumeral
  fallbackColour : pool'.fallbackColour = pool.fallbackColour

namespace Reflagged

theorem refl (pool : VarPool) : pool.Reflagged pool := ⟨rfl, rfl, rfl, rfl⟩

theorem trans (h : pool.Reflagged pool') (h' : pool'.Reflagged pool'') : pool.Reflagged pool'' where
  labels := h'.labels.trans h.labels
  index := h'.index.trans h.index
  nextNumeral := h'.nextNumeral.trans h.nextNumeral
  fallbackColour := h'.fallbackColour.trans h.fallbackColour

theorem names (h : pool.Reflagged pool') : pool'.names = pool.names := by
  rw [names_eq_map_labels, names_eq_map_labels, h.labels]

theorem distinct (h : pool.Reflagged pool') (hpool : pool.Distinct) : pool'.Distinct :=
  hpool.of_names h.names h.index

theorem releaseAll (pool : VarPool) : pool.Reflagged pool.releaseAll where
  labels := by simp [VarPool.labels, VarPool.releaseAll, PoolEntry.label]
  index := rfl
  nextNumeral := rfl
  fallbackColour := rfl

theorem setUsed (pool : VarPool) (name : String) (used : Bool) :
    pool.Reflagged (pool.setUsed name used) where
  labels := labels_setUsed pool name used
  index := index_setUsed pool name used
  nextNumeral := by unfold VarPool.setUsed; split <;> rfl
  fallbackColour := by unfold VarPool.setUsed; split <;> rfl

/-- Marking what the pool knows sets flags only. -/
theorem reserve (h : pool.Distinct) {name : String} (hname : name ∈ pool.names) :
    pool.Reflagged (pool.reserve name) := by
  rw [VarPool.reserve, if_pos (h.isSome_place?.2 hname)]
  exact setUsed pool name true

theorem foldl_reserve (h : pool.Distinct) {vs : List String} (hvs : ∀ v ∈ vs, v ∈ pool.names) :
    pool.Reflagged (vs.foldl VarPool.reserve pool) := by
  induction vs generalizing pool with
  | nil => exact refl pool
  | cons v vs ih =>
      rw [List.forall_mem_cons] at hvs
      have hhead := reserve h hvs.1
      exact hhead.trans (ih (h.reserve v) fun w hw => hhead.names ▸ hvs.2 w hw)

/-- With the same names in use, not even the flags have been changed. -/
theorem eq_of_isUsed (h : pool.Reflagged pool') (hpool : pool.Distinct)
    (hused : ∀ v, pool'.isUsed v ↔ pool.isUsed v) : pool' = pool := by
  refine VarPool.ext (List.ext_getElem? fun i => ?_) h.index h.nextNumeral h.fallbackColour
  have hlabel : pool'.entries[i]?.map PoolEntry.label = pool.entries[i]?.map PoolEntry.label := by
    rw [← List.getElem?_map, ← List.getElem?_map]
    exact congrArg (fun labels => labels[i]?) h.labels
  cases he : pool.entries[i]? with
  | none => simpa [he] using hlabel
  | some e =>
      obtain ⟨e', he', hsame⟩ : ∃ e', pool'.entries[i]? = some e' ∧ e'.label = e.label := by
        simpa [he] using hlabel
      obtain ⟨hname, hcolour⟩ := Prod.mk.inj hsame
      have hflag := hused e.name
      rw [← hname, isUsed_name_iff (h.distinct hpool) (List.mem_of_getElem? he'), hname,
        isUsed_name_iff hpool (List.mem_of_getElem? he)] at hflag
      rw [he', PoolEntry.ext hname hcolour (Bool.eq_iff_iff.2 hflag)]

end Reflagged

/-- A collection marks the variables of all types one after the other. -/
theorem collect_eq_foldl (pool : VarPool) (roots : List Ty) :
    pool.collect roots = (roots.flatMap (·.freeVars.toList)).foldl reserve pool.releaseAll := by
  rw [List.foldl_flatMap]
  rfl

theorem mem_flatMap_freeVars {roots : List Ty} {v : String} :
    v ∈ roots.flatMap (·.freeVars.toList) ↔ ∃ t ∈ roots, v ∈ t.vars := by
  simp [List.mem_flatMap, Ty.freeVars]

/-- Adopted names come after all that were there. -/
theorem labels_reserve (pool : VarPool) (name : String) :
    pool.labels <+: (pool.reserve name).labels := by
  unfold reserve
  split
  · rw [labels_setUsed]
  · exact ⟨[(name, pool.fallbackColour)], by simp [labels, register, PoolEntry.label]⟩

theorem labels_collect (pool : VarPool) (roots : List Ty) :
    pool.labels <+: (pool.collect roots).labels := by
  rw [collect_eq_foldl, ← (Reflagged.releaseAll pool).labels]
  generalize pool.releaseAll = start
  induction roots.flatMap (·.freeVars.toList) generalizing start with
  | nil => exact List.prefix_rfl
  | cons v vs ih => exact (labels_reserve start v).trans (ih (start.reserve v))

theorem collect_collect (h : pool.Distinct) (roots : List Ty) :
    (pool.collect roots).collect roots = pool.collect roots := by
  have hpool := h.collect roots
  have hknown : ∀ v ∈ roots.flatMap (·.freeVars.toList), v ∈ (pool.collect roots).names :=
    fun v hv => mem_names_of_isUsed hpool ((isUsed_collect h roots v).2 (mem_flatMap_freeVars.1 hv))
  have hreleased := Reflagged.releaseAll (pool.collect roots)
  refine Reflagged.eq_of_isUsed ?_ hpool fun v => ?_
  · rw [collect_eq_foldl (pool.collect roots)]
    refine hreleased.trans (.foldl_reserve hpool.releaseAll fun v hv => ?_)
    exact hreleased.names ▸ hknown v hv
  · rw [isUsed_collect hpool, isUsed_collect h]

/-- What holds of every pool that comes about from a new one. Its index has the place of each
entry, and no two entries have the same name. An allocation ends, with a name that was not in use.
A collection leaves in use what occurs in the types, keeps all entries, and has nothing to do and
nothing else to report the second time. -/
theorem Reachable.lifecycle (h : pool.Reachable) :
    pool.names.Nodup ∧
      (∀ (name : String) (i : Nat), pool.place? name = some i ↔ pool.names[i]? = some name) ∧
      pool.HandsOut pool.allocate.1 pool.allocate.2 ∧
      ∀ roots, (∀ v, (pool.collect roots).isUsed v ↔ ∃ t ∈ roots, v ∈ t.vars) ∧
        pool.labels <+: (pool.collect roots).labels ∧
        (pool.collect roots).collect roots = pool.collect roots ∧
        ((pool.collect roots).collect roots).census = (pool.collect roots).census := by
  have hpool := h.distinct
  refine ⟨hpool.nodup, hpool.indexed, hpool.handsOut, fun roots => ?_⟩
  have hagain := collect_collect hpool roots
  exact ⟨isUsed_collect hpool roots, labels_collect pool roots, hagain, congrArg census hagain⟩

/-- The stock is all handed out, and the first numeral has been adopted. -/
theorem lifecycle_exhausted :
    let pool := (fun pool : VarPool => pool.allocate.2)^[52] ((withColour "Silver").reserve "0")
    pool.allocate.1 = "1" ∧ pool.HandsOut "1" pool.allocate.2 ∧
      ∀ v, (pool.collect [.var "0"]).isUsed v ↔ ∃ t ∈ [Ty.var "0"], v ∈ t.vars := by
  have hreach : Reachable
      ((fun pool : VarPool => pool.allocate.2)^[52] ((withColour "Silver").reserve "0")) :=
    Function.Iterate.rec Reachable (.reserve "0" (.new "Silver")) (fun _ => .allocate) 52
  have hname : ((fun pool : VarPool => pool.allocate.2)^[52]
      ((withColour "Silver").reserve "0")).allocate.1 = "1" := by cbv
  obtain ⟨-, -, hout, hcollect⟩ := Reachable.lifecycle hreach
  rw [hname] at hout
  exact ⟨hname, hout, (hcollect [.var "0"]).1⟩

end VarPool

end Plugboard
