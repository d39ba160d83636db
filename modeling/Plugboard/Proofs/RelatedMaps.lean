import Mathlib.Data.List.Forall2
import Mathlib.Data.Option.Basic
import Plugboard.Proofs.Wiring

/-!
# Maps that are related entry by entry

Two maps with the same keys, the entries of which belong together. What builds a map and what
lists one keeps entries together.
-/

namespace Plugboard

variable {α β β' : Type} {cmp : α → α → Ordering} [Std.TransCmp cmp]

theorem rel_map {γ γ' δ δ' : Type} {R : γ → γ' → Prop} {Q : δ → δ' → Prop} {f : γ → δ}
    {f' : γ' → δ'} {x : Option γ} {x' : Option γ'} (h : Option.Rel R x x')
    (hf : ∀ a a', R a a' → Q (f a) (f' a')) : Option.Rel Q (x.map f) (x'.map f') := by
  cases h with
  | none => exact .none
  | some h => exact .some (hf _ _ h)

theorem rel_mapM {γ γ' δ δ' : Type} {R : γ → γ' → Prop} {Q : δ → δ' → Prop} {f : γ → Option δ}
    {f' : γ' → Option δ'} {xs : List γ} {xs' : List γ'} (hxs : List.Forall₂ R xs xs')
    (hf : ∀ a a', R a a' → Option.Rel Q (f a) (f' a')) :
    Option.Rel (List.Forall₂ Q) (xs.mapM f) (xs'.mapM f') := by
  induction hxs with
  | nil => exact .some .nil
  | @cons a a' xs xs' ha _ ih =>
      rw [List.mapM_cons, List.mapM_cons]
      have hhead := hf a a' ha
      generalize f a = b at hhead ⊢
      generalize f' a' = b' at hhead ⊢
      generalize xs.mapM f = bs at ih ⊢
      generalize xs'.mapM f' = bs' at ih ⊢
      cases hhead with
      | none => exact .none
      | some hb =>
          cases ih with
          | none => exact .none
          | some hbs => exact .some (.cons hb hbs)

/-- The maps have the same keys, and related entries. -/
def Related (R : β → β' → Prop) (t : Std.ExtTreeMap α β cmp) (t' : Std.ExtTreeMap α β' cmp) :
    Prop :=
  ∀ a : α, Option.Rel R t[a]? t'[a]?

namespace Related

variable {R : β → β' → Prop} {t : Std.ExtTreeMap α β cmp} {t' : Std.ExtTreeMap α β' cmp}

theorem empty : Related R (∅ : Std.ExtTreeMap α β cmp) (∅ : Std.ExtTreeMap α β' cmp) := by
  intro a
  simp only [Std.ExtTreeMap.getElem?_empty]
  exact .none

theorem insert (h : Related R t t') (a : α) {b : β} {b' : β'} (hb : R b b') :
    Related R (t.insert a b) (t'.insert a b') := by
  intro c
  rw [Std.ExtTreeMap.getElem?_insert, Std.ExtTreeMap.getElem?_insert]
  split
  · exact .some hb
  · exact h c

theorem erase (h : Related R t t') (a : α) : Related R (t.erase a) (t'.erase a) := by
  intro c
  rw [Std.ExtTreeMap.getElem?_erase, Std.ExtTreeMap.getElem?_erase]
  split
  · exact .none
  · exact h c

theorem insertMany {entries : List (α × β)} {entries' : List (α × β')}
    (hentries : List.Forall₂ (fun e e' => e.1 = e'.1 ∧ R e.2 e'.2) entries entries')
    (h : Related R t t') : Related R (t.insertMany entries) (t'.insertMany entries') := by
  induction hentries generalizing t t' with
  | nil => exact h
  | @cons e e' _ _ he _ ih =>
      obtain ⟨a, b⟩ := e
      obtain ⟨a', b'⟩ := e'
      obtain ⟨rfl, hb⟩ := he
      rw [Std.ExtTreeMap.insertMany_cons, Std.ExtTreeMap.insertMany_cons]
      exact ih (h.insert _ hb)

theorem ofList {entries : List (α × β)} {entries' : List (α × β')}
    (hentries : List.Forall₂ (fun e e' => e.1 = e'.1 ∧ R e.2 e'.2) entries entries') :
    Related R (Std.ExtTreeMap.ofList entries cmp) (Std.ExtTreeMap.ofList entries' cmp) := by
  rw [Std.ExtTreeMap.ofList_eq_insertMany_empty, Std.ExtTreeMap.ofList_eq_insertMany_empty]
  exact insertMany hentries empty

theorem imp {Q : β → β' → Prop} (h : Related R t t') (hR : ∀ b b', R b b' → Q b b') :
    Related Q t t' := by
  intro a
  have ha := h a
  generalize t[a]? = found at ha ⊢
  generalize t'[a]? = found' at ha ⊢
  cases ha with
  | none => exact .none
  | some hb => exact .some (hR _ _ hb)

theorem modify {f : β → β} {f' : β' → β'} (h : Related R t t') (a : α)
    (hf : ∀ b b', R b b' → R (f b) (f' b')) : Related R (t.modify a f) (t'.modify a f') := by
  intro c
  rw [Std.ExtTreeMap.getElem?_modify, Std.ExtTreeMap.getElem?_modify]
  split
  · exact rel_map (h a) hf
  · exact h c

variable [Std.LawfulEqCmp cmp]

theorem map {γ γ' : Type} {Q : γ → γ' → Prop} {f : α → β → γ} {f' : α → β' → γ'}
    (h : Related R t t') (hf : ∀ a b b', R b b' → Q (f a b) (f' a b')) :
    Related Q (t.map f) (t'.map f') := by
  intro a
  rw [Std.ExtTreeMap.getElem?_map, Std.ExtTreeMap.getElem?_map]
  exact rel_map (h a) (hf a)

theorem keys (h : Related R t t') : t'.keys = t.keys := by
  have hunit : t'.map (fun _ _ => ()) = t.map fun _ _ => () := by
    refine Std.ExtTreeMap.ext_getElem? fun a => ?_
    rw [Std.ExtTreeMap.getElem?_map, Std.ExtTreeMap.getElem?_map]
    have ha := h a
    generalize t[a]? = found at ha ⊢
    generalize t'[a]? = found' at ha ⊢
    cases ha <;> rfl
  have hkeys := congrArg Std.ExtTreeMap.keys hunit
  simpa using hkeys

theorem toList (h : Related R t t') :
    List.Forall₂ (fun e e' => e.1 = e'.1 ∧ R e.2 e'.2) t.toList t'.toList := by
  have hkeys : t'.toList.map Prod.fst = t.toList.map Prod.fst := by
    simpa using h.keys
  have hlen : t.toList.length = t'.toList.length := by
    simpa using (congrArg List.length hkeys).symm
  refine List.forall₂_iff_get.2 ⟨hlen, fun i hi hi' => ?_⟩
  have hfst : (t'.toList.get ⟨i, hi'⟩).1 = (t.toList.get ⟨i, hi⟩).1 := by
    have hat := congrArg (·[i]?) hkeys
    simpa only [List.getElem?_map, List.getElem?_eq_getElem hi, List.getElem?_eq_getElem hi',
      Option.map_some, Option.some.injEq, List.get_eq_getElem] using hat
  refine ⟨hfst.symm, ?_⟩
  have hmem := Std.ExtTreeMap.mem_toList_iff_getElem?_eq_some.1 (List.get_mem t.toList ⟨i, hi⟩)
  have hmem' := Std.ExtTreeMap.mem_toList_iff_getElem?_eq_some.1 (List.get_mem t'.toList ⟨i, hi'⟩)
  rw [hfst] at hmem'
  have ha := h (t.toList.get ⟨i, hi⟩).1
  rw [hmem, hmem'] at ha
  cases ha with
  | some hb => exact hb

theorem values (h : Related R t t') : List.Forall₂ R t.values t'.values := by
  rw [values_eq_map_toList, values_eq_map_toList, List.forall₂_map_left_iff,
    List.forall₂_map_right_iff]
  exact h.toList.imp fun _ _ => And.right

end Related

end Plugboard
