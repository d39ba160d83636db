import Mathlib.Data.List.Nodup
import Plugboard.VarPool

/-!
# The index of a pool

The entries of a pool have different names, and its index has the place of each. New pools are
like that, registering a name that is new keeps it so, and nothing else adds an entry or changes a
name. With an exact index, what is done through the index is done to the entry with the name.
-/

namespace Plugboard

/-- What an entry keeps for good. -/
def PoolEntry.label (e : PoolEntry) : String × String := (e.name, e.colour)

namespace VarPool

def labels (pool : VarPool) : List (String × String) := pool.entries.map PoolEntry.label

theorem names_eq_map_labels (pool : VarPool) : pool.names = pool.labels.map Prod.fst := by
  simp [names, labels, PoolEntry.label]

/-- No two entries of a pool have the same name, and the index has the place of each. -/
structure Distinct (pool : VarPool) : Prop where
  nodup : pool.names.Nodup
  indexed : ∀ (name : String) (i : Nat), pool.place? name = some i ↔ pool.names[i]? = some name

variable {pool pool' : VarPool}

/-- An index that is exact has one place at most for a name. -/
theorem distinct_of_indexed
    (h : ∀ (name : String) (i : Nat), pool.place? name = some i ↔ pool.names[i]? = some name) :
    pool.Distinct := by
  refine ⟨List.nodup_iff_getElem?_ne_getElem?.2 fun i j hij hj heq => ?_, h⟩
  have hname : pool.names[j]? = some pool.names[j] := List.getElem?_eq_getElem hj
  have hplace := (h _ i).2 (heq.trans hname)
  rw [(h _ j).2 hname, Option.some.injEq] at hplace
  omega

namespace Distinct

theorem isSome_place? (h : pool.Distinct) {name : String} :
    (pool.place? name).isSome ↔ name ∈ pool.names := by
  rw [Option.isSome_iff_exists, List.mem_iff_getElem?]
  exact exists_congr fun i => h.indexed name i

theorem eq_of_name_eq (h : pool.Distinct) {e e' : PoolEntry} (he : e ∈ pool.entries)
    (he' : e' ∈ pool.entries) (hname : e.name = e'.name) : e = e' :=
  List.inj_on_of_nodup_map h.nodup he he' hname

/-- The index has the place of an entry for its name, and for no other. -/
theorem place?_eq_iff (h : pool.Distinct) {i : Nat} {e : PoolEntry}
    (he : pool.entries[i]? = some e) (name : String) :
    pool.place? name = some i ↔ e.name = name := by
  rw [h.indexed, names, List.getElem?_map, he, Option.map_some, Option.some.injEq]

theorem of_names (h : pool.Distinct) (hnames : pool'.names = pool.names)
    (hindex : pool'.index = pool.index) : pool'.Distinct where
  nodup := hnames ▸ h.nodup
  indexed := by
    rw [hnames]
    simpa only [place?, hindex] using h.indexed

end Distinct

/-! ### Registering -/

@[simp]
theorem names_register (pool : VarPool) (name colour : String) (used : Bool) :
    (pool.register name colour used).names = pool.names ++ [name] := by
  simp [names, register]

@[simp]
theorem place?_register (pool : VarPool) (name colour : String) (used : Bool) (v : String) :
    (pool.register name colour used).place? v =
      if v = name then some pool.size else pool.place? v := by
  by_cases hv : v = name <;> simp [place?, register, size, List.lookup_cons, beq_eq_decide, hv]

theorem Distinct.register (h : pool.Distinct) {name : String} (hnew : name ∉ pool.names)
    (colour : String) (used : Bool) : (pool.register name colour used).Distinct := by
  refine distinct_of_indexed fun v i => ?_
  have hlength : pool.entries.length = pool.names.length := (List.length_map _).symm
  rw [names_register, place?_register, size, hlength]
  by_cases hv : v = name
  · subst hv
    have hnone : pool.names[i]? ≠ some v := fun hi => hnew (List.mem_of_getElem? hi)
    rcases Nat.lt_trichotomy i pool.names.length with hi | rfl | hi
    · simp [List.getElem?_append_left hi, hnone, Nat.ne_of_gt hi]
    · simp
    · have hout : (pool.names ++ [v])[i]? = none :=
        List.getElem?_eq_none (by rw [List.length_append]; exact hi)
      simp [hout, Nat.ne_of_lt hi]
  · rw [if_neg hv, h.indexed]
    rcases Nat.lt_or_ge i pool.names.length with hi | hi
    · rw [List.getElem?_append_left hi]
    · rw [List.getElem?_append_right hi, List.getElem?_eq_none hi, List.getElem?_singleton]
      split <;> simp [Ne.symm hv]

/-- Registers unused entries from left to right. -/
def registerAll (pool : VarPool) (pairs : List (String × String)) : VarPool :=
  pairs.foldl (fun pool (name, colour) => pool.register name colour false) pool

theorem Distinct.registerAll (h : pool.Distinct) {pairs : List (String × String)}
    (hnew : (pool.names ++ pairs.map Prod.fst).Nodup) : (pool.registerAll pairs).Distinct := by
  induction pairs generalizing pool with
  | nil => exact h
  | cons p pairs ih =>
      have hfresh := (List.nodup_cons.1 (List.nodup_middle.1 hnew)).1
      refine ih (h.register (fun hmem => hfresh (List.mem_append_left _ hmem)) p.2 false) ?_
      simpa using hnew

theorem registerAll_eq (pool : VarPool) (pairs : List (String × String)) :
    pool.registerAll pairs =
      { pool with
        entries := pool.entries ++ pairs.map fun (name, colour) => ⟨name, colour, false⟩
        index := ((pairs.map Prod.fst).zipIdx pool.size).reverse ++ pool.index } := by
  induction pairs generalizing pool with
  | nil => simp [registerAll]
  | cons p pairs ih =>
      refine (ih (pool.register p.1 p.2 false)).trans ?_
      simp [register, size, List.zipIdx_cons]

/-- A new pool is what registering the stock makes of an empty one. -/
theorem withColour_eq_registerAll (fallback : String) :
    withColour fallback = registerAll ⟨[], [], 0, fallback⟩ stock := by
  rw [registerAll_eq, List.append_nil, List.nil_append]
  rfl

theorem distinct_withColour (fallback : String) : (withColour fallback).Distinct := by
  have hstart : (⟨[], [], 0, fallback⟩ : VarPool).Distinct :=
    distinct_of_indexed fun name i => by simp [names, place?]
  have hstock : (stock.map Prod.fst).Nodup := by decide
  rw [withColour_eq_registerAll]
  exact hstart.registerAll hstock

/-! ### Changing flags -/

/-- Setting a flag through the index sets it where the name is. -/
theorem entries_setUsed (h : pool.Distinct) (name : String) (used : Bool) :
    (pool.setUsed name used).entries =
      pool.entries.map fun e => if e.name = name then { e with used } else e := by
  refine List.ext_getElem? fun j => ?_
  rw [List.getElem?_map, setUsed]
  cases he : pool.entries[j]? with
  | none =>
      have hout := List.getElem?_eq_none_iff.1 he
      split <;> simp [hout]
  | some e =>
      have hplace := h.place?_eq_iff he name
      cases hindex : pool.place? name with
      | none =>
          have hne : e.name ≠ name := fun heq => by simp [hindex] at hplace; exact hplace heq
          simp [he, hne]
      | some i =>
          have hiff : i = j ↔ e.name = name := by rw [← hplace, hindex, Option.some.injEq]
          simp only [List.getElem?_modify, he, Option.map_some, hiff]
          split <;> rfl

@[simp]
theorem labels_setUsed (pool : VarPool) (name : String) (used : Bool) :
    (pool.setUsed name used).labels = pool.labels := by
  unfold setUsed
  split
  · refine List.ext_getElem? fun j => ?_
    simp only [labels, List.getElem?_map, List.getElem?_modify]
    cases pool.entries[j]? with
    | none => rfl
    | some e => simp only [Option.map_some]; split <;> rfl
  · rfl

@[simp]
theorem names_setUsed (pool : VarPool) (name : String) (used : Bool) :
    (pool.setUsed name used).names = pool.names := by
  rw [names_eq_map_labels, names_eq_map_labels, labels_setUsed]

@[simp]
theorem index_setUsed (pool : VarPool) (name : String) (used : Bool) :
    (pool.setUsed name used).index = pool.index := by
  unfold setUsed
  split <;> rfl

namespace Distinct

theorem setUsed (h : pool.Distinct) (name : String) (used : Bool) :
    (pool.setUsed name used).Distinct :=
  h.of_names (names_setUsed pool name used) (index_setUsed pool name used)

theorem release (h : pool.Distinct) (name : String) : (pool.release name).2.Distinct :=
  h.setUsed name false

theorem reserve (h : pool.Distinct) (name : String) : (pool.reserve name).Distinct := by
  unfold VarPool.reserve
  split
  next => exact h.setUsed name true
  next hnew => exact h.register (fun hmem => hnew (h.isSome_place?.2 hmem)) _ _

theorem reserveTy (h : pool.Distinct) (t : Ty) : (pool.reserveTy t).Distinct := by
  unfold VarPool.reserveTy
  induction t.freeVars.toList generalizing pool with
  | nil => exact h
  | cons v vs ih => exact ih (h.reserve v)

theorem releaseAll (h : pool.Distinct) : pool.releaseAll.Distinct :=
  h.of_names (by simp [names, VarPool.releaseAll]) rfl

theorem collect (h : pool.Distinct) (roots : List Ty) : (pool.collect roots).Distinct := by
  unfold VarPool.collect
  have hstart := h.releaseAll
  generalize pool.releaseAll = start at hstart
  induction roots generalizing start with
  | nil => exact hstart
  | cons t ts ih => exact ih _ (hstart.reserveTy t)

end Distinct

/-- The entry that the index finds is the one with the name. -/
theorem find?_eq_some_iff (h : pool.Distinct) {name : String} {e : PoolEntry} :
    pool.find? name = some e ↔ e ∈ pool.entries ∧ e.name = name := by
  rw [find?, Option.bind_eq_some_iff, List.mem_iff_getElem?]
  constructor
  · rintro ⟨i, hi, he⟩
    exact ⟨⟨i, he⟩, (h.place?_eq_iff he name).1 hi⟩
  · rintro ⟨⟨i, he⟩, hname⟩
    exact ⟨i, (h.place?_eq_iff he name).2 hname, he⟩

theorem isUsed_iff (h : pool.Distinct) (v : String) :
    pool.isUsed v ↔ ∃ e ∈ pool.entries, e.name = v ∧ e.used = true := by
  simp only [isUsed, Option.any_eq_true, find?_eq_some_iff h, and_assoc]

theorem isUsed_name_iff (h : pool.Distinct) {e : PoolEntry} (he : e ∈ pool.entries) :
    pool.isUsed e.name ↔ e.used = true := by
  rw [isUsed_iff h]
  constructor
  · rintro ⟨e', he', hname, hused⟩
    rwa [h.eq_of_name_eq he he' hname.symm]
  · exact fun hused => ⟨e, he, rfl, hused⟩

theorem mem_names_of_isUsed (h : pool.Distinct) {v : String} (hv : pool.isUsed v) :
    v ∈ pool.names := by
  obtain ⟨e, he, rfl, -⟩ := (isUsed_iff h v).1 hv
  exact List.mem_map_of_mem he

theorem isUsed_register (h : pool.Distinct) {name : String} (hnew : name ∉ pool.names)
    (colour : String) (v : String) :
    (pool.register name colour true).isUsed v ↔ v = name ∨ pool.isUsed v := by
  rw [isUsed_iff (h.register hnew colour true), isUsed_iff h]
  simp only [register, List.mem_append, List.mem_singleton]
  constructor
  · rintro ⟨e, he | rfl, rfl, hused⟩
    · exact .inr ⟨e, he, rfl, hused⟩
    · exact .inl rfl
  · rintro (rfl | ⟨e, he, rfl, hused⟩)
    · exact ⟨_, .inr rfl, rfl, rfl⟩
    · exact ⟨e, .inl he, rfl, hused⟩

end VarPool

end Plugboard
