import Mathlib
import Plugboard.Proofs.MarkupRoundTrip
import Plugboard.Proofs.Outcome

/-!
# Elements that hold a type

An element may have attributes that say nothing about its type, and attributes that come too late
to count. Apart from these it has to be the element that the type is stored as, down to the last
child; any other element is refused.
-/

namespace Plugboard

namespace Markup

mutual

/-- The element is the other one with more attributes, or with repeated ones, at any node: of each
attribute of the other one the first of that name has its value. -/
inductive Element.Decorates : Element → Element → Prop where
  | node {name : String} {attrs bare : List (String × String)} {children children' : List Element}
      (hattrs : ∀ entry ∈ bare, attrs.lookup entry.1 = some entry.2)
      (hchildren : AllDecorate children children') :
      Element.Decorates (.node name attrs children) (.node name bare children')

/-- The elements in two lists correspond one to one. -/
inductive AllDecorate : List Element → List Element → Prop where
  | nil : AllDecorate [] []
  | cons {e e' : Element} {es es' : List Element} (h : e.Decorates e') (hs : AllDecorate es es') :
      AllDecorate (e :: es) (e' :: es')

end

end Markup

namespace Ty

open Markup

theorem requireAttr_eq_ok {attrs : List (String × String)} {key value : String} :
    requireAttr attrs key = .ok value ↔ attrs.lookup key = some value := by
  rw [requireAttr]
  cases attrs.lookup key <;> simp

theorem ofElements_cons_eq_ok {e : Element} {es : List Element} {ts : List Ty} :
    ofElements (e :: es) = .ok ts ↔
      ∃ t us, ofElement e = .ok t ∧ ofElements es = .ok us ∧ t :: us = ts := by
  rw [ofElements]
  cases ofElement e with
  | error m => simp
  | ok t => simp [map_eq_ok]

section Shapes

variable {name : String} {attrs : List (String × String)} {children : List Element} {t : Ty}

/-- What is read as a type is called one, and says which shape it has. -/
theorem shape_of_ofElement (h : ofElement (.node name attrs children) = .ok t) :
    name = "type" ∧ (attrs.lookup "type" = some "var" ∨ attrs.lookup "type" = some "literal" ∨
      attrs.lookup "type" = some "function") := by
  rw [ofElement.eq_def] at h
  by_cases hname : name = "type"
  · refine ⟨hname, ?_⟩
    simp only [hname, ne_eq, not_true_eq_false, if_false] at h
    cases hshape : requireAttr attrs "type" with
    | error m => simp [hshape] at h
    | ok shape =>
      rw [requireAttr_eq_ok.1 hshape]
      by_contra! hother
      simp only [ne_eq, Option.some.injEq] at hother
      simp [hshape, hother.1, hother.2.1, hother.2.2] at h
  · simp [hname] at h

theorem ofElement_var (h : attrs.lookup "type" = some "var") :
    ofElement (.node "type" attrs children) = .ok t ↔
      ∃ v, children = [] ∧ attrs.lookup "var" = some v ∧ .var v = t := by
  rw [ofElement.eq_def]
  simp only [requireAttr_eq_ok.2 h, ne_eq, not_true_eq_false, if_false, if_true]
  cases children with
  | nil => simp [map_eq_ok, requireAttr_eq_ok]
  | cons child children => simp

theorem ofElement_con (h : attrs.lookup "type" = some "literal") :
    ofElement (.node "type" attrs children) = .ok t ↔
      ∃ c ts, ofElements children = .ok ts ∧ attrs.lookup "name" = some c ∧ .con c ts = t := by
  have hne : "literal" ≠ "var" := by decide
  rw [ofElement.eq_def]
  simp only [requireAttr_eq_ok.2 h, ne_eq, not_true_eq_false, if_false, if_true, if_neg hne]
  cases ofElements children with
  | error m => simp
  | ok ts => simp [map_eq_ok, requireAttr_eq_ok]

theorem ofElement_fn (h : attrs.lookup "type" = some "function") :
    ofElement (.node "type" attrs children) = .ok t ↔
      ∃ e e' a r, children = [e, e'] ∧ ofElement e = .ok a ∧ ofElement e' = .ok r ∧
        .fn a r = t := by
  have hvar : "function" ≠ "var" := by decide
  have hcon : "function" ≠ "literal" := by decide
  rw [ofElement.eq_def]
  simp only [requireAttr_eq_ok.2 h, ne_eq, not_true_eq_false, if_false, if_true, if_neg hvar,
    if_neg hcon]
  rcases children with _ | ⟨e, _ | ⟨e', _ | ⟨e'', es⟩⟩⟩
  · simp
  · simp
  · cases ha : ofElement e with
    | error m => simp [ha]
    | ok a => simp [ha, map_eq_ok]
  · simp

end Shapes

mutual

/-- What is read from an element is a type whose own element it decorates. -/
theorem decorates_of_ofElement : ∀ {e : Element} {t : Ty} (_ : ofElement e = .ok t),
    e.Decorates t.toElement
  | .node name attrs children, t, h => by
      obtain ⟨rfl, hshape | hshape | hshape⟩ := shape_of_ofElement h
      · obtain ⟨v, rfl, hv, rfl⟩ := (ofElement_var hshape).1 h
        exact .node (by simp [hshape, hv]) .nil
      · obtain ⟨c, ts, hts, hc, rfl⟩ := (ofElement_con hshape).1 h
        exact .node (by simp [hshape, hc]) (allDecorate_of_ofElements hts)
      · obtain ⟨e, e', a, r, rfl, ha, hr, rfl⟩ := (ofElement_fn hshape).1 h
        exact .node (by simp [hshape]) (.cons (decorates_of_ofElement ha)
          (.cons (decorates_of_ofElement hr) .nil))

theorem allDecorate_of_ofElements : ∀ {es : List Element} {ts : List Ty}
    (_ : ofElements es = .ok ts), AllDecorate es (toElements ts)
  | [], ts, h => by
      obtain rfl : [] = ts := Except.ok.inj h
      exact .nil
  | e :: es, ts, h => by
      obtain ⟨t, us, ht, hus, rfl⟩ := ofElements_cons_eq_ok.1 h
      exact .cons (decorates_of_ofElement ht) (allDecorate_of_ofElements hus)

end

mutual

/-- Whatever decorates the element of a type is read as that type. -/
theorem ofElement_of_decorates : ∀ {t : Ty} {e : Element} (_ : e.Decorates t.toElement),
    ofElement e = .ok t
  | .var v, _, .node hattrs hchildren => by
      cases hchildren
      exact (ofElement_var (hattrs ("type", "var") (by simp))).2
        ⟨v, rfl, hattrs ("var", v) (by simp), rfl⟩
  | .con c ts, _, .node hattrs hchildren =>
      (ofElement_con (hattrs ("type", "literal") (by simp))).2
        ⟨c, ts, ofElements_of_allDecorate hchildren, hattrs ("name", c) (by simp), rfl⟩
  | .fn a r, _, .node hattrs hchildren => by
      obtain _ | ⟨ha, hrest⟩ := hchildren
      obtain _ | ⟨hr, hnil⟩ := hrest
      cases hnil
      exact (ofElement_fn (hattrs ("type", "function") (by simp))).2
        ⟨_, _, a, r, rfl, ofElement_of_decorates ha, ofElement_of_decorates hr, rfl⟩

theorem ofElements_of_allDecorate : ∀ {ts : List Ty} {es : List Element}
    (_ : AllDecorate es (toElements ts)), ofElements es = .ok ts
  | [], _, .nil => rfl
  | t :: ts, _, .cons h hs =>
      ofElements_cons_eq_ok.2
        ⟨t, ts, ofElement_of_decorates h, ofElements_of_allDecorate hs, rfl⟩

end

theorem ofElement_eq_ok {e : Element} {t : Ty} : ofElement e = .ok t ↔ e.Decorates t.toElement :=
  ⟨decorates_of_ofElement, ofElement_of_decorates⟩

theorem toElement_injective : Function.Injective toElement := fun t u h =>
  Except.ok.inj ((ofElement_toElement t).symm.trans (h ▸ ofElement_toElement u))

/-- An element holds a type exactly if it is that type's element, decorated at any node. A type's
own element holds that type and no other has the same one; an element that decorates the one of no
type is refused. -/
theorem ofElement_exact :
    (∀ e t, ofElement e = .ok t ↔ e.Decorates t.toElement) ∧
      (∀ t : Ty, ofElement t.toElement = .ok t) ∧ Function.Injective toElement ∧
      ∀ e, (∃ m, ofElement e = .error m) ↔ ∀ t : Ty, ¬ e.Decorates t.toElement := by
  refine ⟨fun _ _ => ofElement_eq_ok, ofElement_toElement, toElement_injective, fun e => ?_⟩
  simp only [← ofElement_eq_ok]
  cases ofElement e <;> simp

/-- The first of two shapes counts, and an attribute of no meaning does not. -/
example : ofElement (.node "type" [("id", "7"), ("type", "var"), ("type", "literal"), ("var", "A")]
    []) = .ok (.var "A") := by decide

end Ty

end Plugboard
