import Plugboard.Proofs.LoweredTerms
import Plugboard.Proofs.Slots

/-!
# How the types on a block fit together

A block is lowered to a term that is put together from those of its inputs. From a typing of the
whole term one reads off the types of the parts and how they fit together; the notes of the parts
are found among those of the whole, which notes its own type first.
-/

namespace Plugboard

/-- A name may have a type: it is an instance of the scheme of the name, or the name is bound
within a term. -/
def Env.Uses (env : Env) (bound : String → Prop) (name : String) (t : Ty) : Prop :=
  (∃ scheme, env.lookup name = some scheme ∧ scheme.Instance t) ∨ bound name

namespace BlockKind

/-- How the types of the inputs, by slot, and that of the output fit together. -/
def Fits (uses : String → Ty → Prop) (inputs : String → Ty) (output : Ty) : BlockKind → Prop
  | .literal _ ty => output = ty
  | .operator name arity =>
      uses name (.curried ((List.range arity).map fun i => inputs (Slot.arg i)) output)
  | .lambda _ => ∃ param, output = .fn param (inputs Slot.body)
  | .apply => inputs Slot.func = .fn (inputs Slot.argument) output
  | .localLet _ => output = inputs Slot.body
  | .list items => ∃ item, (∀ i < items, inputs (Slot.item i) = item) ∧ output = .list item
  | .comprehension vars guards =>
      (∀ v ∈ vars, ∃ item, inputs (Slot.generator v) = .list item) ∧
        (∀ i < guards, inputs (Slot.guard i) = .bool) ∧ output = .list (inputs Slot.yielded)
  | .cases typeName arms => ∃ fields : Arm → List Ty,
      (∀ arm ∈ arms, (fields arm).length = arm.binders.length) ∧
        uses (caseName typeName) (.curried (inputs Slot.scrutinee ::
          arms.map fun arm => .curried (fields arm) (inputs (Slot.arm arm.constructor))) output)
  | .variable _ | .function _ _ | .data _ | .statement _ => True

theorem Fits.imp {uses uses' : String → Ty → Prop} {inputs : String → Ty} {output : Ty}
    {kind : BlockKind} (h : kind.Fits uses inputs output)
    (huses : ∀ name t, uses name t → uses' name t) : kind.Fits uses' inputs output := by
  cases kind with
  | operator name arity => exact huses _ _ h
  | cases typeName arms =>
      obtain ⟨fields, hfields, h⟩ := h
      exact ⟨fields, hfields, huses _ _ h⟩
  | _ => exact h

/-- Of what is lowered only a function has no output. -/
theorem hasOutput_of_operands? {kind : BlockKind} (hruns : kind.operands?.isSome)
    (hfun : ¬ ∃ name params, kind = .function name params) : kind.hasOutput := by
  cases kind with
  | function name params => exact (hfun ⟨name, params, rfl⟩).elim
  | data | statement => cases hruns
  | _ => rfl

variable {tag : Tag} {part : String → Term}

theorem assemble_operator {name : String} {arity : Nat} :
    (operator name (arity + 1)).assemble tag ((operator name (arity + 1)).slots.map part) =
      callName tag name ((operator name (arity + 1)).slots.map part) := by
  simp [slots, List.range_succ_eq_map, assemble]

theorem assemble_comprehension {vars : List String} {guards : Nat} :
    (comprehension vars guards).assemble tag ((comprehension vars guards).slots.map part) =
      comprehensionTerm tag (vars.zip (vars.map fun v => part (Slot.generator v)))
        ((List.range guards).map fun i => part (Slot.guard i)) (part Slot.yielded) := by
  simp [slots, assemble, Function.comp_def, List.getLastD_eq_getLast?]

theorem assemble_cases {typeName : String} {arms : List Arm} :
    (BlockKind.cases typeName arms).assemble tag ((BlockKind.cases typeName arms).slots.map part) =
      callName tag (caseName typeName) (part Slot.scrutinee ::
        arms.map fun arm => Term.lamAll arm.binders (part (Slot.arm arm.constructor))) := by
  simp [slots, assemble, List.zipWith_map_right, List.zipWith_self]

end BlockKind

namespace Prelude

/-- The names that terms are built from have their schemes in the environment. -/
def Within (env : Env) (bound : String → Prop) : Prop :=
  ∀ name ∈ [bindName, guardName, yieldName, consName, nilName],
    ¬ bound name ∧ env.lookup name = Prelude.env.lookup name

variable {env : Env} {bound : String → Prop} {t : Ty}

theorem exists_instance_operator {args : List Ty} {result : Ty}
    (h : (operator args result).Instance t) :
    ∃ f : String → Ty, t = .curried (args.map (Ty.bind f)) (result.bind f) := by
  obtain ⟨f, -, rfl⟩ := h
  exact ⟨f, Ty.bind_curried f args result⟩

theorem Within.exists_uses (h : Within env bound) {name : String}
    (hname : name ∈ [bindName, guardName, yieldName, consName, nilName]) (args : List Ty)
    (result : Ty) (hoperator : Prelude.env.lookup name = some (operator args result))
    (huses : env.Uses bound name t) :
    ∃ f : String → Ty, t = .curried (args.map (Ty.bind f)) (result.bind f) := by
  obtain ⟨hfree, hlookup⟩ := h name hname
  rcases huses with ⟨scheme, hscheme, hinst⟩ | hbound
  · rw [hlookup, hoperator] at hscheme
    obtain rfl := Option.some.inj hscheme
    exact exists_instance_operator hinst
  · exact (hfree hbound).elim

theorem Within.uses_cons (h : Within env bound) (huses : env.Uses bound consName t) :
    ∃ a, t = .curried [a, .list a] (.list a) := by
  obtain ⟨f, rfl⟩ := h.exists_uses (by simp) [.var "a", .list (.var "a")] (.list (.var "a"))
    (by cbv) huses
  exact ⟨f "a", rfl⟩

theorem Within.uses_nil (h : Within env bound) (huses : env.Uses bound nilName t) :
    ∃ a, t = .list a := by
  obtain ⟨f, rfl⟩ := h.exists_uses (by simp) [] (.list (.var "a")) (by cbv) huses
  exact ⟨f "a", rfl⟩

theorem Within.uses_bind (h : Within env bound) (huses : env.Uses bound bindName t) :
    ∃ a b, t = .curried [.list a, .fn a (.list b)] (.list b) := by
  obtain ⟨f, rfl⟩ := h.exists_uses (by simp)
    [.list (.var "a"), .fn (.var "a") (.list (.var "b"))] (.list (.var "b")) (by cbv) huses
  exact ⟨f "a", f "b", rfl⟩

theorem Within.uses_guard (h : Within env bound) (huses : env.Uses bound guardName t) :
    ∃ a, t = .curried [.bool, .list a] (.list a) := by
  obtain ⟨f, rfl⟩ := h.exists_uses (by simp) [.bool, .list (.var "a")] (.list (.var "a"))
    (by cbv) huses
  exact ⟨f "a", rfl⟩

theorem Within.uses_yield (h : Within env bound) (huses : env.Uses bound yieldName t) :
    ∃ a, t = .curried [a] (.list a) := by
  obtain ⟨f, rfl⟩ := h.exists_uses (by simp) [.var "a"] (.list (.var "a")) (by cbv) huses
  exact ⟨f "a", rfl⟩

end Prelude

/-- Notes with the same types for all tags but one. -/
def Tag.Beside (tag : Tag) (notes notes' : List (Tag × Ty)) : Prop :=
  ∀ other ≠ tag, notes.lookup other = notes'.lookup other

namespace Tag.Beside

variable {tag : Tag} {notes notes' notes'' rest rest' : List (Tag × Ty)}

theorem refl (tag : Tag) (notes : List (Tag × Ty)) : tag.Beside notes notes := fun _ _ => rfl

theorem trans (h : tag.Beside notes notes') (h' : tag.Beside notes' notes'') :
    tag.Beside notes notes'' :=
  fun other hne => (h other hne).trans (h' other hne)

theorem append (h : tag.Beside notes notes') (h' : tag.Beside rest rest') :
    tag.Beside (notes ++ rest) (notes' ++ rest') := fun other hne => by
  rw [List.lookup_append, List.lookup_append, h other hne, h' other hne]

theorem cons (t : Ty) (notes : List (Tag × Ty)) : tag.Beside ((tag, t) :: notes) notes :=
  fun other hne => by rw [List.lookup_cons, beq_eq_false_iff_ne.2 hne]

end Tag.Beside

namespace Term.Noted

open InferM BlockKind

variable {env : Env} {bound : String → Prop} {tag : Tag} {t : Ty} {notes : List (Tag × Ty)}

/-- Typings of terms, one by one. -/
abbrev All (env : Env) (bound : String → Prop) (parts : List Term)
    (typings : List (Ty × List (Tag × Ty))) : Prop :=
  List.Forall₂ (fun part typing => Noted env bound part typing.1 typing.2) parts typings

/-- The notes of several terms, those of the last one first. -/
def joined (typings : List (Ty × List (Tag × Ty))) : List (Tag × Ty) :=
  (typings.map (·.2)).reverse.flatten

theorem joined_cons (typing : Ty × List (Tag × Ty)) (typings : List (Ty × List (Tag × Ty))) :
    joined (typing :: typings) = joined typings ++ typing.2 := by
  simp [joined]

theorem joined_append (typings typings' : List (Ty × List (Tag × Ty))) :
    joined (typings ++ typings') = joined typings' ++ joined typings := by
  simp [joined]

theorem of_var {name : String} {tag? : Option Tag} (h : Noted env bound (.var name tag?) t notes) :
    env.Uses bound name t ∧ notes = noted tag? t [] := by
  cases h with
  | var _ hlookup hinst => exact ⟨.inl ⟨_, hlookup, hinst⟩, rfl⟩
  | bound _ _ hname => exact ⟨.inr hname, rfl⟩

theorem of_lamAll {params : List String} {body : Term}
    (h : Noted env bound (Term.lamAll params body) t notes) :
    ∃ (args : List Ty) (result : Ty), args.length = params.length ∧ t = .curried args result ∧
      Noted env bound body result notes := by
  induction params generalizing t notes with
  | nil => exact ⟨[], t, rfl, rfl, h⟩
  | cons param params ih =>
      cases h with
      | lam a _ hrest =>
          obtain ⟨args, result, hlength, rfl, hbody⟩ := ih hrest
          exact ⟨a :: args, result, by simp [hlength], rfl, hbody⟩

theorem of_call {func : Term} {args : List Term}
    (h : Noted env bound (call tag func args) t notes) :
    ∃ typings funcNotes, Noted env bound func (.curried (typings.map (·.1)) t) funcNotes ∧
      All env bound args typings ∧ tag.Beside notes (joined typings ++ funcNotes) ∧
      (args ≠ [] → notes.lookup tag = some t) := by
  induction args generalizing func with
  | nil => exact ⟨[], notes, h, .nil, .refl _ _, fun hne => (hne rfl).elim⟩
  | cons arg args ih =>
      obtain ⟨typings, notes', hfunc, hargs, hbeside, hhead⟩ := ih h
      cases hfunc with
      | @app _ _ a _ notes₁ notes₂ _ hfunc harg =>
          refine ⟨(a, notes₂) :: typings, notes₁, hfunc, .cons harg hargs, ?_, fun _ => ?_⟩
          · rw [joined_cons, List.append_assoc]
            exact hbeside.trans (.append (.refl _ _) (.cons _ _))
          · cases args with
            | cons => exact hhead (by simp)
            | nil =>
                cases h with
                | app => exact List.lookup_cons_self

theorem of_callName {name : String} {args : List Term} (hargs : args ≠ [])
    (h : Noted env bound (callName tag name args) t notes) :
    ∃ typings, env.Uses bound name (.curried (typings.map (·.1)) t) ∧
      All env bound args typings ∧ tag.Beside notes (joined typings) ∧
      notes.lookup tag = some t := by
  obtain ⟨typings, funcNotes, hfunc, hparts, hbeside, hhead⟩ := h.of_call
  obtain ⟨huses, rfl⟩ := hfunc.of_var
  exact ⟨typings, huses, hparts, List.append_nil (joined typings) ▸ hbeside, hhead hargs⟩

/-- A call of a name with two arguments. -/
theorem of_callName₂ {name : String} {first second : Term}
    (h : Noted env bound (callName tag name [first, second]) t notes) :
    ∃ a b notes₁ notes₂, env.Uses bound name (.curried [a, b] t) ∧
      Noted env bound first a notes₁ ∧ Noted env bound second b notes₂ ∧
      tag.Beside notes (notes₂ ++ notes₁) ∧ notes.lookup tag = some t := by
  obtain ⟨typings, huses, hparts, hbeside, hhead⟩ := h.of_callName (by simp)
  cases hparts with
  | @cons _ typing₁ _ _ hfirst hparts =>
      cases hparts with
      | @cons _ typing₂ _ _ hsecond hparts =>
          cases hparts with
          | nil =>
              refine ⟨typing₁.1, typing₂.1, typing₁.2, typing₂.2, huses, hfirst, hsecond, ?_, hhead⟩
              simpa [joined] using hbeside

theorem of_listTerm (hprelude : Prelude.Within env bound) {items : List Term}
    (h : Noted env bound (listTerm tag items) t notes) :
    ∃ item typings, All env bound items typings ∧ (∀ typing ∈ typings, typing.1 = item) ∧
      t = .list item ∧ tag.Beside notes (joined typings) ∧ notes.lookup tag = some t := by
  induction items generalizing t notes with
  | nil =>
      obtain ⟨huses, rfl⟩ := of_var h
      obtain ⟨item, rfl⟩ := hprelude.uses_nil huses
      exact ⟨item, [], .nil, by simp, rfl, .cons _ _, List.lookup_cons_self⟩
  | cons part items ih =>
      obtain ⟨a, b, notes₁, notes₂, huses, hpart, hrest, hbeside, hhead⟩ := of_callName₂ h
      obtain ⟨item, heq⟩ := hprelude.uses_cons huses
      simp only [Ty.curried, List.foldr, Ty.fn.injEq] at heq
      obtain ⟨rfl, rfl, rfl⟩ := heq
      obtain ⟨item, typings, hparts, htys, heq, hbeside', -⟩ := ih hrest
      obtain rfl : a = item := by simpa [Ty.list] using heq
      refine ⟨a, (a, notes₁) :: typings, .cons hpart hparts, by simpa using htys, rfl, ?_, hhead⟩
      rw [joined_cons]
      exact hbeside.trans (hbeside'.append (.refl _ _))

theorem of_guards (hprelude : Prelude.Within env bound) {guards : List Term} {rest : Term}
    (h : Noted env bound (guards.foldr
      (fun guard rest => callName tag Prelude.guardName [guard, rest]) rest) t notes) :
    ∃ typings restNotes, All env bound guards typings ∧ (∀ typing ∈ typings, typing.1 = .bool) ∧
      Noted env bound rest t restNotes ∧ tag.Beside notes (restNotes ++ joined typings) ∧
      (restNotes.lookup tag = some t → notes.lookup tag = some t) := by
  induction guards generalizing t notes with
  | nil =>
      exact ⟨[], notes, .nil, by simp, h, by simpa [joined] using .refl _ _, id⟩
  | cons guard guards ih =>
      obtain ⟨a, b, notes₁, notes₂, huses, hguard, hrest, hbeside, hhead⟩ := of_callName₂ h
      obtain ⟨item, heq⟩ := hprelude.uses_guard huses
      simp only [Ty.curried, List.foldr, Ty.fn.injEq] at heq
      obtain ⟨rfl, rfl, rfl⟩ := heq
      obtain ⟨typings, restNotes, hparts, htys, hrest, hbeside', -⟩ := ih hrest
      refine ⟨(.bool, notes₁) :: typings, restNotes, .cons hguard hparts, by simpa using htys,
        hrest, ?_, fun _ => hhead⟩
      rw [joined_cons, ← List.append_assoc]
      exact hbeside.trans (hbeside'.append (.refl _ _))

theorem of_generators (hprelude : Prelude.Within env bound) {generators : List (String × Term)}
    {rest : Term} (h : Noted env bound (generators.foldr (fun generator rest =>
      callName tag Prelude.bindName [generator.2, .lam generator.1 rest none]) rest) t notes) :
    ∃ typings restNotes, All env bound (generators.map (·.2)) typings ∧
      (∀ typing ∈ typings, ∃ item, typing.1 = .list item) ∧ Noted env bound rest t restNotes ∧
      tag.Beside notes (restNotes ++ joined typings) ∧
      (restNotes.lookup tag = some t → notes.lookup tag = some t) := by
  induction generators generalizing t notes with
  | nil => exact ⟨[], notes, .nil, by simp, h, by simpa [joined] using .refl _ _, id⟩
  | cons generator generators ih =>
      obtain ⟨a, b, notes₁, notes₂, huses, hsource, hbody, hbeside, hhead⟩ := of_callName₂ h
      obtain ⟨item, item', heq⟩ := hprelude.uses_bind huses
      simp only [Ty.curried, List.foldr, Ty.fn.injEq] at heq
      obtain ⟨rfl, rfl, rfl⟩ := heq
      cases hbody with
      | lam _ _ hrest =>
          obtain ⟨typings, restNotes, hparts, htys, hrest, hbeside', -⟩ := ih hrest
          refine ⟨(.list item, notes₁) :: typings, restNotes, .cons hsource hparts, ?_, hrest, ?_,
            fun _ => hhead⟩
          · simpa using htys
          · rw [joined_cons, ← List.append_assoc]
            exact hbeside.trans (hbeside'.append (.refl _ _))

theorem of_comprehensionTerm (hprelude : Prelude.Within env bound)
    {generators : List (String × Term)} {guards : List Term} {body : Term}
    (h : Noted env bound (comprehensionTerm tag generators guards body) t notes) :
    ∃ lists tests yielded bodyNotes, All env bound (generators.map (·.2)) lists ∧
      All env bound guards tests ∧ Noted env bound body yielded bodyNotes ∧
      (∀ typing ∈ lists, ∃ item, typing.1 = .list item) ∧
      (∀ typing ∈ tests, typing.1 = .bool) ∧ t = .list yielded ∧
      tag.Beside notes (joined (lists ++ tests ++ [(yielded, bodyNotes)])) ∧
      notes.lookup tag = some t := by
  obtain ⟨lists, notes₁, hlists, hlistTys, hguarded, hbeside₁, hhead₁⟩ := of_generators hprelude h
  obtain ⟨tests, notes₂, htests, htestTys, hyield, hbeside₂, hhead₂⟩ := of_guards hprelude hguarded
  obtain ⟨typings, huses, hparts, hbeside₃, hhead₃⟩ := hyield.of_callName (by simp)
  obtain ⟨item, heq⟩ := hprelude.uses_yield huses
  cases hparts with
  | @cons _ typing _ _ hbody hparts =>
      cases hparts with
      | nil =>
          obtain ⟨yielded, bodyNotes⟩ := typing
          simp only [List.map, Ty.curried, List.foldr, Ty.fn.injEq] at heq
          obtain ⟨rfl, rfl⟩ := heq
          refine ⟨lists, tests, yielded, bodyNotes, hlists, htests, hbody, hlistTys, htestTys, rfl,
            ?_, hhead₁ (hhead₂ hhead₃)⟩
          rw [joined_append, joined_append, ← List.append_assoc]
          exact hbeside₁.trans ((hbeside₂.trans (hbeside₃.append (.refl _ _))).append (.refl _ _))

/-- Typings of listed parts, if no part is listed twice, as functions of the parts. -/
theorem All.exists_map {α : Type} {part : α → Term} {xs : List α} (hnodup : xs.Nodup)
    {typings : List (Ty × List (Tag × Ty))} (h : All env bound (xs.map part) typings) :
    ∃ typing : α → Ty × List (Tag × Ty), typings = xs.map typing ∧
      ∀ x ∈ xs, Noted env bound (part x) (typing x).1 (typing x).2 := by
  classical
  induction xs generalizing typings with
  | nil =>
      cases h
      exact ⟨fun _ => default, rfl, by simp⟩
  | cons x xs ih =>
      rw [List.nodup_cons] at hnodup
      cases h with
      | @cons _ head _ tail hhead htail =>
          obtain ⟨typing, rfl, htyping⟩ := ih hnodup.2 htail
          have hne : ∀ y ∈ xs, y ≠ x := fun y hy heq => hnodup.1 (heq ▸ hy)
          refine ⟨fun y => if y = x then head else typing y, ?_, ?_⟩
          · rw [List.map_cons, if_pos rfl]
            exact congrArg (head :: ·) (List.map_congr_left fun y hy => (if_neg (hne y hy)).symm)
          · refine List.forall_mem_cons.2 ⟨by simpa using hhead, fun y hy => ?_⟩
            simpa [hne y hy] using htyping y hy

/-- Typings of abstractions are typings of their bodies, with types for the parameters. -/
theorem All.exists_lamAll {α : Type} {params : α → List String} {body : α → Term} {xs : List α}
    (hnodup : xs.Nodup) {typings : List (Ty × List (Tag × Ty))}
    (h : All env bound (xs.map fun x => Term.lamAll (params x) (body x)) typings) :
    ∃ (fields : α → List Ty) (typing : α → Ty × List (Tag × Ty)),
      (∀ x ∈ xs, (fields x).length = (params x).length) ∧
      typings = xs.map (fun x => (.curried (fields x) (typing x).1, (typing x).2)) ∧
      All env bound (xs.map body) (xs.map typing) := by
  obtain ⟨whole, rfl, hwhole⟩ := h.exists_map hnodup
  have hsplit : ∀ x, ∃ (fields : List Ty) (result : Ty), x ∈ xs →
      fields.length = (params x).length ∧ (whole x).1 = .curried fields result ∧
      Noted env bound (body x) result (whole x).2 := by
    intro x
    by_cases hx : x ∈ xs
    · obtain ⟨fields, result, hbody⟩ := (hwhole x hx).of_lamAll
      exact ⟨fields, result, fun _ => hbody⟩
    · exact ⟨[], default, fun hmem => (hx hmem).elim⟩
  choose fields result hsplit using hsplit
  refine ⟨fields, fun x => (result x, (whole x).2), fun x hx => (hsplit x hx).1, ?_, ?_⟩
  · exact List.map_congr_left fun x hx => Prod.ext (hsplit x hx).2.1 rfl
  · rw [All, List.forall₂_map_left_iff, List.forall₂_map_right_iff, List.forall₂_same]
    exact fun x hx => (hsplit x hx).2.2

/-- The parts of a block's term have types that fit that of the block, and the notes of the whole
are theirs but for the type of the block. -/
def FitParts (env : Env) (bound : String → Prop) (tag : Tag) (kind : BlockKind)
    (part : String → Term) (t : Ty) (notes : List (Tag × Ty)) : Prop :=
  ∃ typing : String → Ty × List (Tag × Ty),
    (∀ slot ∈ kind.slots, Noted env bound (part slot) (typing slot).1 (typing slot).2) ∧
    tag.Beside notes (joined (kind.slots.map typing)) ∧
    kind.Fits (env.Uses bound) (fun slot => (typing slot).1) t ∧ notes.lookup tag = some t

namespace FitParts

variable {kind : BlockKind} {part : String → Term}

/-- Typings of the parts one by one are enough: no slot is listed twice. -/
theorem of_all {typings : List (Ty × List (Tag × Ty))} (hkind : kind.Unrepeated)
    (hparts : All env bound (kind.slots.map part) typings)
    (hbeside : tag.Beside notes (joined typings)) (hhead : notes.lookup tag = some t)
    (hfits : ∀ typing : String → Ty × List (Tag × Ty), typings = kind.slots.map typing →
      kind.Fits (env.Uses bound) (fun slot => (typing slot).1) t) :
    FitParts env bound tag kind part t notes := by
  obtain ⟨typing, rfl, htyping⟩ := hparts.exists_map hkind.nodup_slots
  exact ⟨typing, htyping, hbeside, hfits typing rfl, hhead⟩

theorem literal {value : String} {ty : Ty} (h : Noted env bound (.lit ty (some tag)) t notes) :
    FitParts env bound tag (.literal value ty) part t notes := by
  cases h with
  | lit => exact of_all trivial .nil (.cons _ _) List.lookup_cons_self fun _ _ => rfl

theorem «variable» {name : String} (h : Noted env bound (.var name (some tag)) t notes) :
    FitParts env bound tag (.variable name) part t notes := by
  obtain ⟨-, rfl⟩ := h.of_var
  exact of_all trivial .nil (.cons _ _) List.lookup_cons_self fun _ _ => trivial

theorem operator {name : String} {arity : Nat}
    (h : Noted env bound ((BlockKind.operator name arity).assemble tag
      ((BlockKind.operator name arity).slots.map part)) t notes) :
    FitParts env bound tag (.operator name arity) part t notes := by
  cases arity with
  | zero =>
      obtain ⟨huses, rfl⟩ := of_var h
      exact of_all trivial .nil (.cons _ _) List.lookup_cons_self fun _ _ => huses
  | succ arity =>
      rw [assemble_operator] at h
      obtain ⟨typings, huses, hparts, hbeside, hhead⟩ := h.of_callName (by simp [slots])
      refine of_all trivial hparts hbeside hhead fun typing heq => ?_
      subst heq
      simpa [Fits, slots, Function.comp_def] using huses

theorem lambda {param : String}
    (h : Noted env bound (.lam param (part Slot.body) (some tag)) t notes) :
    FitParts env bound tag (.lambda param) part t notes := by
  cases h with
  | @lam _ _ u rest a _ hbody =>
      have hparts : All env bound ((BlockKind.lambda param).slots.map part) [(u, rest)] :=
        .cons hbody .nil
      refine of_all trivial hparts ?_ List.lookup_cons_self fun typing heq => ⟨a, ?_⟩
      · simpa [joined] using .cons _ _
      · exact congrArg (fun head => Ty.fn a head.1) (List.cons.inj heq).1

theorem apply (h : Noted env bound (call tag (part Slot.func) [part Slot.argument]) t notes) :
    FitParts env bound tag .apply part t notes := by
  obtain ⟨typings, rest, hfunc, hargs, hbeside, hhead⟩ := h.of_call
  have hparts : All env bound (BlockKind.apply.slots.map part)
      ((.curried (typings.map (·.1)) t, rest) :: typings) := .cons hfunc hargs
  rw [← joined_cons (.curried (typings.map (·.1)) t, rest)] at hbeside
  cases hargs with
  | cons _ hnil =>
      cases hnil
      refine of_all trivial hparts hbeside (hhead (by simp)) fun typing heq => ?_
      simp only [slots, List.map, List.cons.injEq, and_true] at heq
      simp [Fits, ← heq.1, ← heq.2, Ty.curried]

theorem localLet {name : String}
    (h : Noted env bound (.letIn name (part Slot.value) (part Slot.body) (some tag)) t notes) :
    FitParts env bound tag (.localLet name) part t notes := by
  cases h with
  | @letIn _ _ _ u _ notes₁ notes₂ _ hvalue hbody =>
      have hparts : All env bound ((BlockKind.localLet name).slots.map part)
          [(u, notes₁), (t, notes₂)] := .cons hvalue (.cons hbody .nil)
      refine of_all trivial hparts ?_ List.lookup_cons_self fun typing heq => ?_
      · simpa [joined] using .cons _ _
      · simp only [slots, List.map, List.cons.injEq, and_true] at heq
        simp [Fits, ← heq.2]

theorem cases {typeName : String} {arms : List Arm}
    (harms : (arms.map (·.constructor)).Nodup)
    (h : Noted env bound (callName tag (caseName typeName) (part Slot.scrutinee ::
      arms.map fun arm => Term.lamAll arm.binders (part (Slot.arm arm.constructor)))) t notes) :
    FitParts env bound tag (.cases typeName arms) part t notes := by
  obtain ⟨typings, huses, hparts, hbeside, hhead⟩ := h.of_callName (by simp)
  cases hparts with
  | @cons _ scrutinee _ bodies hscrutinee hbodies =>
      obtain ⟨fields, typing, hfields, rfl, hresults⟩ := All.exists_lamAll harms.of_map hbodies
      have hall : All env bound ((BlockKind.cases typeName arms).slots.map part)
          (scrutinee :: arms.map typing) := by
        rw [slots, List.map_cons, List.map_map]
        exact .cons hscrutinee hresults
      refine of_all harms hall ?_ hhead fun whole heq => ⟨fields, hfields, ?_⟩
      · simpa [joined, Function.comp_def] using hbeside
      · simp only [slots, List.map_cons, List.map_map, List.cons.injEq, List.map_inj_left,
          Function.comp_apply] at heq
        obtain ⟨rfl, hwhole⟩ := heq
        have hargs : (arms.map fun arm => Ty.curried (fields arm)
            (whole (Slot.arm arm.constructor)).1) =
              arms.map fun arm => Ty.curried (fields arm) (typing arm).1 :=
          List.map_congr_left fun arm harm => by rw [hwhole arm harm]
        rw [hargs]
        simpa [Function.comp_def] using huses

variable (hprelude : Prelude.Within env bound)

include hprelude

theorem list {items : Nat}
    (h : Noted env bound (listTerm tag ((BlockKind.list items).slots.map part)) t notes) :
    FitParts env bound tag (.list items) part t notes := by
  obtain ⟨item, typings, hparts, htys, rfl, hbeside, hhead⟩ := of_listTerm hprelude h
  refine of_all trivial hparts hbeside hhead fun typing heq => ⟨item, fun i hi => htys _ ?_, rfl⟩
  simpa [heq, slots] using ⟨i, hi, rfl⟩

theorem comprehension {vars : List String} {guards : Nat} (hvars : vars.Nodup)
    (h : Noted env bound (comprehensionTerm tag
      (vars.zip (vars.map fun v => part (Slot.generator v)))
      ((List.range guards).map fun i => part (Slot.guard i)) (part Slot.yielded)) t notes) :
    FitParts env bound tag (.comprehension vars guards) part t notes := by
  obtain ⟨lists, tests, yielded, rest, hlists, htests, hbody, hlistTys, htestTys, rfl, hbeside,
    hhead⟩ := of_comprehensionTerm hprelude h
  rw [List.map_snd_zip (by simp)] at hlists
  have hparts : All env bound ((BlockKind.comprehension vars guards).slots.map part)
      (lists ++ tests ++ [(yielded, rest)]) := by
    simp only [slots, List.map_append, List.map_map]
    exact List.rel_append (List.rel_append hlists htests) (.cons hbody .nil)
  refine of_all hvars hparts hbeside hhead fun typing heq => ?_
  simp only [slots, List.map_append, List.map_map, List.map_singleton] at heq
  obtain ⟨hfront, hlast⟩ := List.append_inj' heq rfl
  obtain ⟨rfl, rfl⟩ := List.append_inj hfront (by simpa using hlists.length_eq.symm)
  obtain ⟨hyielded, -⟩ := List.cons.inj hlast
  simp only [List.forall_mem_map, Function.comp_apply, List.mem_range] at hlistTys htestTys
  exact ⟨hlistTys, htestTys, by simp [← hyielded]⟩

end FitParts

/-- From a typing of a block's term one reads off the types of its parts. -/
theorem of_assemble (hprelude : Prelude.Within env bound) {kind : BlockKind}
    (hkind : kind.Unrepeated) (hout : kind.hasOutput) {part : String → Term}
    (h : Noted env bound (kind.assemble tag (kind.slots.map part)) t notes) :
    FitParts env bound tag kind part t notes := by
  cases kind with
  | literal value ty => exact .literal h
  | «variable» name => exact .variable h
  | operator name arity => exact .operator h
  | lambda param => exact .lambda h
  | apply => exact .apply h
  | localLet name => exact .localLet h
  | list items => exact .list hprelude h
  | comprehension vars guards =>
      rw [assemble_comprehension] at h
      exact .comprehension hprelude hkind h
  | cases typeName arms =>
      rw [assemble_cases] at h
      exact .cases hkind h
  | function | data | statement => cases hout

end Term.Noted

end Plugboard
