import Plugboard.Proofs.MentionedNames
import Plugboard.Proofs.Renaming

/-!
# Alpha-equivalence and renaming

Terms are alpha-equivalent if they differ in the names of their binders at most. An abstraction
stays so when its parameter is renamed where it occurs free in the body, as long as the new name is
not free there and no binder of that name stands between the parameter and one of its uses.
-/

namespace Plugboard

variable {name old new : String}

namespace Term

/-- Puts the new name in the place of the old one wherever that occurs free. -/
def rename (old new : String) : Term → Term
  | .var name tag => .var (if name = old then new else name) tag
  | .lit ty tag => .lit ty tag
  | .app func arg tag => .app (func.rename old new) (arg.rename old new) tag
  | .lam param body tag => .lam param (if param = old then body else body.rename old new) tag
  | .letIn name bound body tag =>
      .letIn name (bound.rename old new) (if name = old then body else body.rename old new) tag

/-- No binder of the new name captures what refers to the old one. -/
def CaptureFree (old new : String) : Term → Prop
  | .var _ _ | .lit _ _ => True
  | .app func arg _ => func.CaptureFree old new ∧ arg.CaptureFree old new
  | .lam param body _ => param = old ∨
      (body.Mentions old → param ≠ new) ∧ body.CaptureFree old new
  | .letIn name bound body _ => bound.CaptureFree old new ∧
      (name = old ∨ (body.Mentions old → name ≠ new) ∧ body.CaptureFree old new)

/-- A name that no binder has captures nothing. -/
theorem BindersIn.captureFree {e : Term} (h : e.BindersIn (· ≠ new)) : e.CaptureFree old new := by
  induction e with
  | var => trivial
  | lit => trivial
  | app func arg tag hfunc harg => exact ⟨hfunc h.1, harg h.2⟩
  | lam param body tag hbody => exact .inr ⟨fun _ => h.1, hbody h.2⟩
  | letIn name bound body tag hbound hbody =>
      exact ⟨hbound h.2.1, .inr ⟨fun _ => h.1, hbody h.2.2⟩⟩

theorem BindersIn.of_lamAll {bound : String → Prop} {params : List String} {body : Term} {tag : Tag}
    (h : ((lamAll params body).tagged tag).BindersIn bound) : body.BindersIn bound := by
  have htagged : ∀ {e : Term}, (e.tagged tag).BindersIn bound → e.BindersIn bound := by
    intro e he
    cases e <;> exact he
  replace h := htagged h
  induction params with
  | nil => exact h
  | cons param params ih => exact ih h.2

theorem Corresponds.swap {scope : List (String × String)} {x y : String}
    (h : Corresponds scope x y) : Corresponds (scope.map Prod.swap) y x := by
  induction h with
  | free name => exact .free name
  | here x y => exact .here y x
  | there hne hne' _ ih => exact .there hne' hne ih

theorem corresponds_cons_iff {scope : List (String × String)} {bound bound' x y : String} :
    Corresponds ((bound, bound') :: scope) x y ↔
      (bound = x ∧ bound' = y) ∨ (bound ≠ x ∧ bound' ≠ y ∧ Corresponds scope x y) := by
  constructor
  · rintro (_ | _ | ⟨hne, hne', h⟩)
    · exact .inl ⟨rfl, rfl⟩
    · exact .inr ⟨hne, hne', h⟩
  · rintro (⟨rfl, rfl⟩ | ⟨hne, hne', h⟩)
    · exact .here _ _
    · exact .there hne hne' h

namespace AlphaEq

variable {scope : List (String × String)} {e e' : Term}

theorem swap (h : AlphaEq scope e e') : AlphaEq (scope.map Prod.swap) e' e := by
  induction h with
  | var tag h => exact .var tag h.swap
  | lit t tag => exact .lit t tag
  | app tag _ _ hfunc harg => exact .app tag hfunc harg
  | lam tag _ hbody => exact .lam tag hbody
  | letIn tag _ _ hbound hbody => exact .letIn tag hbound hbody

/-- What is free in a term corresponds to what is free in the other. -/
theorem exists_mentions {x : String} (h : AlphaEq scope e e') (hx : e.Mentions x) :
    ∃ y, e'.Mentions y ∧ Corresponds scope x y := by
  induction h with
  | @var _ _ y tag h => exact ⟨y, rfl, (hx : _ = x) ▸ h⟩
  | lit t tag => exact hx.elim
  | app tag _ _ hfunc harg =>
      rcases hx with hx | hx
      · exact (hfunc hx).imp fun y hy => ⟨.inl hy.1, hy.2⟩
      · exact (harg hx).imp fun y hy => ⟨.inr hy.1, hy.2⟩
  | lam tag _ hbody =>
      obtain ⟨y, hy, hxy⟩ := hbody hx.2
      have hout := (corresponds_cons_iff.1 hxy).resolve_left fun hin => hx.1 hin.1
      exact ⟨y, ⟨hout.2.1, hy⟩, hout.2.2⟩
  | letIn tag _ _ hbound hbody =>
      rcases hx with hx | hx
      · exact (hbound hx).imp fun y hy => ⟨.inl hy.1, hy.2⟩
      · obtain ⟨y, hy, hxy⟩ := hbody hx.2
        have hout := (corresponds_cons_iff.1 hxy).resolve_left fun hin => hx.1 hin.1
        exact ⟨y, .inr ⟨hout.2.1, hy⟩, hout.2.2⟩

/-- Alpha-equivalent terms have the same free names. -/
theorem mentions_iff (h : AlphaEq [] e e') : e.Mentions name ↔ e'.Mentions name := by
  have hfree : ∀ {e e' : Term}, AlphaEq [] e e' → e.Mentions name → e'.Mentions name := by
    intro e e' h hname
    obtain ⟨y, hy, hxy⟩ := h.exists_mentions hname
    cases hxy
    exact hy
  exact ⟨hfree h, hfree h.swap⟩

theorem tagged (h : AlphaEq scope e e') (tag : Tag) :
    AlphaEq scope (e.tagged tag) (e'.tagged tag) := by
  cases h with
  | var _ h => exact .var _ h
  | lit t _ => exact .lit t _
  | app _ hfunc harg => exact .app _ hfunc harg
  | lam _ hbody => exact .lam _ hbody
  | letIn _ hbound hbody => exact .letIn _ hbound hbody

/-- A term is alpha-equivalent to itself where its free names mean the same on both sides. -/
theorem of_mentions (h : ∀ x, e.Mentions x → Corresponds scope x x) : AlphaEq scope e e := by
  have hunder : ∀ {scope : List (String × String)} {binder : String} {body : Term},
      (∀ x, binder ≠ x ∧ body.Mentions x → Corresponds scope x x) →
      ∀ x, body.Mentions x → Corresponds ((binder, binder) :: scope) x x := by
    intro scope binder body h x hx
    by_cases heq : binder = x
    · exact heq ▸ .here binder binder
    · exact .there heq heq (h x ⟨heq, hx⟩)
  induction e generalizing scope with
  | var x tag => exact .var tag (h x rfl)
  | lit t tag => exact .lit t tag
  | app func arg tag hfunc harg =>
      exact .app tag (hfunc fun x hx => h x (.inl hx)) (harg fun x hx => h x (.inr hx))
  | lam param body tag hbody => exact .lam tag (hbody (hunder h))
  | letIn name bound body tag hbound hbody =>
      exact .letIn tag (hbound fun x hx => h x (.inl hx))
        (hbody (hunder fun x hx => h x (.inr hx)))

/-- A renamed term is alpha-equivalent to the term itself where the new name means what the old
one does, and nothing else that is free changes its meaning. -/
theorem of_rename (hcapture : e.CaptureFree old new)
    (h : ∀ x, e.Mentions x → Corresponds scope x (if x = old then new else x)) :
    AlphaEq scope e (e.rename old new) := by
  have hunder : ∀ {scope : List (String × String)} {binder : String} {body : Term},
      (∀ {scope}, body.CaptureFree old new →
        (∀ x, body.Mentions x → Corresponds scope x (if x = old then new else x)) →
          AlphaEq scope body (body.rename old new)) →
      (binder = old ∨ (body.Mentions old → binder ≠ new) ∧ body.CaptureFree old new) →
      (∀ x, binder ≠ x ∧ body.Mentions x → Corresponds scope x (if x = old then new else x)) →
      AlphaEq ((binder, binder) :: scope) body
        (if binder = old then body else body.rename old new) := by
    intro scope binder body ih hbinder h
    by_cases hold : binder = old
    · rw [if_pos hold]
      refine of_mentions fun x hx => ?_
      by_cases heq : binder = x
      · exact heq ▸ .here binder binder
      · have hxx := h x ⟨heq, hx⟩
        rw [if_neg fun hxold => heq (hold.trans hxold.symm)] at hxx
        exact .there heq heq hxx
    · obtain ⟨hnew, hcapture⟩ := hbinder.resolve_left hold
      rw [if_neg hold]
      refine ih hcapture fun x hx => ?_
      by_cases heq : binder = x
      · rw [if_neg (heq ▸ hold), heq]
        exact .here x x
      · refine .there heq ?_ (h x ⟨heq, hx⟩)
        split
        · rename_i hxold
          exact hnew (hxold ▸ hx)
        · exact heq
  induction e generalizing scope with
  | var x tag => exact .var tag (h x rfl)
  | lit t tag => exact .lit t tag
  | app func arg tag hfunc harg =>
      exact .app tag (hfunc hcapture.1 fun x hx => h x (.inl hx))
        (harg hcapture.2 fun x hx => h x (.inr hx))
  | lam param body tag hbody => exact .lam tag (hunder hbody hcapture h)
  | letIn name bound body tag hbound hbody =>
      exact .letIn tag (hbound hcapture.1 fun x hx => h x (.inl hx))
        (hunder hbody hcapture.2 fun x hx => h x (.inr hx))

end AlphaEq

theorem mentions_lamAll_iff {params : List String} {body : Term} :
    (lamAll params body).Mentions name ↔ name ∉ params ∧ body.Mentions name := by
  induction params with
  | nil => simp [lamAll]
  | cons param params ih =>
      have hcons : (lamAll (param :: params) body).Mentions name ↔
        param ≠ name ∧ (lamAll params body).Mentions name := Iff.rfl
      rw [hcons, ih, List.mem_cons, not_or, and_assoc, ne_comm]

theorem rename_lamAll (params : List String) (body : Term) :
    (lamAll params body).rename old new =
      lamAll params (if old ∈ params then body else body.rename old new) := by
  induction params with
  | nil => rfl
  | cons param params ih =>
      have hcons : (lamAll (param :: params) body).rename old new = .lam param (if param = old then
          lamAll params body else (lamAll params body).rename old new) none := rfl
      rw [hcons, ih]
      by_cases hold : param = old
      · simp [hold, lamAll]
      · simp [hold, Ne.symm hold, lamAll]

theorem captureFree_lamAll {params : List String} {body : Term} (h : body.CaptureFree old new)
    (hnew : new ∉ params) : (lamAll params body).CaptureFree old new := by
  induction params with
  | nil => exact h
  | cons param params ih =>
      rw [List.mem_cons, not_or] at hnew
      exact .inr ⟨fun _ => Ne.symm hnew.1, ih hnew.2⟩

/-- A parameter is renamed together with what refers to it. -/
theorem alphaEq_lamAll_replace {params : List String} {body : Term} (hnodup : params.Nodup)
    (hold : old ∈ params) (hnew : new ∉ params) (hfree : ¬ body.Mentions new)
    (hcapture : body.CaptureFree old new) :
    AlphaEq [] (lamAll params body) (lamAll (params.replace old new) (body.rename old new)) := by
  suffices hbelow : ∀ scope, (∀ x, (lamAll params body).Mentions x → Corresponds scope x x) →
      AlphaEq scope (lamAll params body)
        (lamAll (params.replace old new) (body.rename old new)) from
    hbelow [] fun x _ => .free x
  induction params with
  | nil => exact (List.not_mem_nil hold).elim
  | cons param params ih =>
      obtain ⟨hparam, hnodup⟩ := List.nodup_cons.1 hnodup
      rw [List.mem_cons, not_or] at hnew
      intro scope h
      by_cases heq : param = old
      · subst heq
        have hbody : (lamAll params body).rename param new =
            lamAll params (body.rename param new) := by
          rw [rename_lamAll, if_neg hparam]
        rw [List.replace_cons_self]
        refine .lam none (?_ : AlphaEq _ (lamAll params body) (lamAll params _))
        rw [← hbody]
        refine .of_rename (captureFree_lamAll hcapture hnew.2) fun x hx => ?_
        split
        · rename_i hx'
          exact hx' ▸ .here _ _
        · rename_i hne
          refine .there (Ne.symm hne) (fun hnew' => ?_) (h x ⟨Ne.symm hne, hx⟩)
          exact hfree (hnew' ▸ (mentions_lamAll_iff.1 hx).2)
      · have hreplace : (param :: params).replace old new = param :: params.replace old new := by
          rw [List.replace_cons, beq_false_of_ne (Ne.symm heq)]
        rw [hreplace]
        refine .lam none (ih hnodup ((List.mem_cons.1 hold).resolve_left (Ne.symm heq)) hnew.2 _
          fun x hx => ?_)
        by_cases hx' : param = x
        · exact hx' ▸ .here _ _
        · exact .there hx' hx' (h x ⟨hx', hx⟩)

end Term

end Plugboard
