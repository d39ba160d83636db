import Mathlib.Data.List.Flatten
import Mathlib.Data.List.TakeWhile
import Plugboard.Proofs.MentionedNames

/-!
# Where the variables of a term occur

A variable occurs in a term under the names that are bound around it. The term of a block has the
occurrences of the parts in its slots, under the names that the block binds there, and those of the
names that it brings in itself. Which names a block binds in a slot is what `shadows` says of it.
-/

namespace Plugboard

/-- A variable in a term, with the names that are bound around it, the innermost first. -/
structure Occurrence where
  name : String
  tag : Option Tag
  scope : List String
  deriving DecidableEq

/-- The variables in a term, from left to right. The scope of a local definition is its body, not
the term that is bound. -/
def Term.occurrences (scope : List String) : Term → List Occurrence
  | .var name tag => [⟨name, tag, scope⟩]
  | .lit _ _ => []
  | .app func arg _ => func.occurrences scope ++ arg.occurrences scope
  | .lam param body _ => body.occurrences (param :: scope)
  | .letIn name bound body _ => bound.occurrences scope ++ body.occurrences (name :: scope)

/-- One list has the elements of the other and some that satisfy a predicate. -/
def Adds {α : Type} (own : α → Prop) (all rest : List α) : Prop :=
  ∃ added, (∀ a ∈ added, own a) ∧ all.Perm (added ++ rest)

namespace Adds

variable {α : Type} {own : α → Prop} {a : α} {all rest all' rest' : List α}

theorem refl (all : List α) : Adds own all all :=
  ⟨[], fun _ ha => (List.not_mem_nil ha).elim, .refl _⟩

theorem cons (ha : own a) (h : Adds own all rest) : Adds own (a :: all) rest :=
  let ⟨added, hadded, hperm⟩ := h
  ⟨a :: added, List.forall_mem_cons.2 ⟨ha, hadded⟩, hperm.cons a⟩

theorem append (h : Adds own all rest) (h' : Adds own all' rest') :
    Adds own (all ++ all') (rest ++ rest') := by
  obtain ⟨added, hadded, hperm⟩ := h
  obtain ⟨added', hadded', hperm'⟩ := h'
  refine ⟨added ++ added', List.forall_mem_append.2 ⟨hadded, hadded'⟩,
    (hperm.append hperm').trans ?_⟩
  rw [List.append_assoc, List.append_assoc]
  refine .append_left added ?_
  rw [← List.append_assoc, ← List.append_assoc]
  exact .append_right rest' List.perm_append_comm

theorem mem (h : Adds own all rest) (ha : a ∈ all) : own a ∨ a ∈ rest := by
  obtain ⟨added, hadded, hperm⟩ := h
  exact (List.mem_append.1 (hperm.mem_iff.1 ha)).imp_left (hadded a)

/-- What satisfies the predicate does not matter where it is left out. -/
theorem filter_perm (h : Adds own all rest) {p : α → Bool} (hp : ∀ a, own a → ¬ p a) :
    (all.filter p).Perm (rest.filter p) := by
  obtain ⟨added, hadded, hperm⟩ := h
  have hnone : added.filter p = [] :=
    List.filter_eq_nil_iff.2 fun a ha => hp a (hadded a ha)
  refine (hperm.filter p).trans ?_
  rw [List.filter_append, hnone, List.nil_append]

end Adds

namespace BlockKind

/-- The names that a block binds around what is in a slot, the innermost first. -/
def bindsAt (kind : BlockKind) (slot : String) : List String :=
  match kind with
  | .lambda bound | .localLet bound => if slot = Slot.body then [bound] else []
  | .comprehension vars _ => (vars.takeWhile fun v => Slot.generator v != slot).reverse
  | .cases _ arms =>
      ((arms.find? fun arm => Slot.arm arm.constructor == slot).elim [] (·.binders)).reverse
  | .function _ params => params.reverse
  | _ => []

theorem takeWhile_generator_ne_guard (vars : List String) (index : Nat) :
    (vars.takeWhile fun v => Slot.generator v != Slot.guard index) = vars :=
  List.takeWhile_eq_self_iff.2 fun v _ => bne_iff_ne.2 (Slot.generator_ne_guard v index)

theorem takeWhile_generator_ne_yielded (vars : List String) :
    (vars.takeWhile fun v => Slot.generator v != Slot.yielded) = vars :=
  List.takeWhile_eq_self_iff.2 fun v _ => bne_iff_ne.2 (Slot.generator_ne_yielded v)

theorem find?_arm {arms : List Arm} (harms : (arms.map (·.constructor)).Nodup) {arm : Arm}
    (harm : arm ∈ arms) :
    arms.find? (fun other => Slot.arm other.constructor == Slot.arm arm.constructor) =
      some arm := by
  cases hfound : arms.find? fun other => Slot.arm other.constructor == Slot.arm arm.constructor with
  | none => exact (List.find?_eq_none.1 hfound arm harm (beq_self_eq_true _)).elim
  | some other =>
      have hslot := List.find?_some hfound
      rw [List.inj_on_of_nodup_map harms (List.mem_of_find?_eq_some hfound) harm
        (Slot.arm_injective (beq_iff_eq.1 hslot))]

/-- A block with an output shadows the names that it binds around a slot. -/
theorem mem_bindsAt_iff {kind : BlockKind} (hout : kind.hasOutput) (hkind : kind.Unrepeated)
    (slot name : String) : name ∈ kind.bindsAt slot ↔ kind.shadows slot name := by
  cases kind with
  | lambda bound | localLet bound =>
      rw [bindsAt, shadows, Bool.and_eq_true, beq_iff_eq, beq_iff_eq]
      split
      · rename_i hslot
        rw [List.mem_singleton, eq_comm, and_iff_right hslot]
      · rename_i hslot
        exact ⟨fun hmem => (List.not_mem_nil hmem).elim, fun h => (hslot h.1).elim⟩
  | comprehension vars guards => simp [bindsAt, shadows]
  | cases typeName arms =>
      simp only [bindsAt, shadows, List.mem_reverse, List.any_eq_true, Bool.and_eq_true,
        beq_iff_eq, List.contains_iff_mem]
      constructor
      · cases hfound : arms.find? fun arm => Slot.arm arm.constructor == slot with
        | none => exact fun hmem => (List.not_mem_nil hmem).elim
        | some arm =>
            have hslot := List.find?_some hfound
            exact fun hmem => ⟨arm, List.mem_of_find?_eq_some hfound, beq_iff_eq.1 hslot, hmem⟩
      · rintro ⟨arm, harm, rfl, hmem⟩
        rwa [find?_arm hkind harm]
  | literal | operator | «variable» | apply | list => simp [bindsAt, shadows]
  | function | data | statement => cases hout

variable {tag : Tag} {scope : List String}

theorem occurrences_lamAll (params : List String) (body : Term) :
    (Term.lamAll params body).occurrences scope = body.occurrences (params.reverse ++ scope) := by
  induction params generalizing scope with
  | nil => rfl
  | cons param params ih =>
      change (Term.lamAll params body).occurrences (param :: scope) = _
      rw [ih, List.reverse_cons, List.append_assoc, List.singleton_append]

theorem occurrences_call (func : Term) (args : List Term) :
    (call tag func args).occurrences scope =
      func.occurrences scope ++ args.flatMap (·.occurrences scope) := by
  induction args generalizing func with
  | nil => exact (List.append_nil _).symm
  | cons arg args ih =>
      refine (ih (.app func arg (some tag))).trans ?_
      rw [Term.occurrences, List.append_assoc, List.flatMap_cons]

theorem occurrences_callName (name : String) (args : List Term) :
    (callName tag name args).occurrences scope =
      ⟨name, none, scope⟩ :: args.flatMap (·.occurrences scope) :=
  occurrences_call _ args

/-- An occurrence that the block itself puts into its term. -/
def Own (kind : BlockKind) (tag : Tag) (o : Occurrence) : Prop :=
  kind.Brings o.name ∧ (o.tag = none ∨ o.tag = some tag)

theorem adds_listTerm {own : Occurrence → Prop} (hcons : own ⟨Prelude.consName, none, scope⟩)
    (hnil : own ⟨Prelude.nilName, some tag, scope⟩) (items : List Term) :
    Adds own ((listTerm tag items).occurrences scope) (items.flatMap (·.occurrences scope)) := by
  induction items with
  | nil => exact .cons hnil (.refl [])
  | cons item items ih =>
      change Adds own ((callName tag Prelude.consName [item, listTerm tag items]).occurrences
        scope) _
      rw [occurrences_callName, List.flatMap_cons, List.flatMap_cons, List.flatMap_cons,
        List.flatMap_nil, List.append_nil]
      exact .cons hcons (.append (.refl _) ih)

/-- The variables that are bound before a generator are those that the one in its list sees. -/
theorem adds_comprehensionTerm {own : Occurrence → Prop}
    (hown : ∀ name ∈ [Prelude.bindName, Prelude.guardName, Prelude.yieldName], ∀ scope,
      own ⟨name, none, scope⟩) {vars : List String} (hvars : vars.Nodup)
    (source : String → Term) (guards : List Term) (body : Term) (scope : List String) :
    Adds own
      ((comprehensionTerm tag (vars.zip (vars.map source)) guards body).occurrences scope)
      ((vars.flatMap fun v => (source v).occurrences
          ((vars.takeWhile fun u => Slot.generator u != Slot.generator v).reverse ++ scope)) ++
        guards.flatMap (·.occurrences (vars.reverse ++ scope)) ++
        body.occurrences (vars.reverse ++ scope)) := by
  induction vars generalizing scope with
  | nil =>
      change Adds own ((guards.foldr (fun guard rest => callName tag Prelude.guardName
        [guard, rest]) (callName tag Prelude.yieldName [body])).occurrences scope)
        (guards.flatMap (·.occurrences scope) ++ body.occurrences scope)
      induction guards with
      | nil =>
          rw [List.foldr_nil, occurrences_callName, List.flatMap_singleton]
          exact .cons (hown _ (by simp) scope) (.refl _)
      | cons guard guards ih =>
          rw [List.foldr_cons, occurrences_callName, List.flatMap_cons, List.flatMap_singleton,
            List.flatMap_cons, List.append_assoc]
          exact .cons (hown _ (by simp) scope) (.append (.refl _) ih)
  | cons v vars ih =>
      obtain ⟨hv, hvars⟩ := List.nodup_cons.1 hvars
      have hfirst : ((v :: vars).takeWhile fun u => Slot.generator u != Slot.generator v) = [] :=
        List.takeWhile_cons_of_neg (by simp)
      have hlater : ∀ w ∈ vars,
          ((v :: vars).takeWhile fun u => Slot.generator u != Slot.generator w).reverse ++ scope =
            (vars.takeWhile fun u => Slot.generator u != Slot.generator w).reverse ++
              v :: scope := by
        intro w hw
        have hne : (Slot.generator v != Slot.generator w) = true :=
          bne_iff_ne.2 (Slot.generator_injective.ne fun h => hv (h ▸ hw))
        rw [List.takeWhile_cons, if_pos hne, List.reverse_cons, List.append_assoc,
          List.singleton_append]
      change Adds own ((callName tag Prelude.bindName [source v, .lam v (comprehensionTerm tag
        (vars.zip (vars.map source)) guards body) none]).occurrences scope) _
      rw [occurrences_callName, List.flatMap_cons, List.flatMap_singleton, List.flatMap_cons,
        hfirst, List.reverse_cons, List.append_assoc vars.reverse, List.singleton_append,
        List.append_assoc, List.append_assoc, ← List.append_assoc (List.flatMap _ _)]
      refine .cons (hown _ (by simp) scope) (.append (.refl _) ?_)
      have hsources : (vars.flatMap fun w => (source w).occurrences
            (((v :: vars).takeWhile fun u => Slot.generator u != Slot.generator w).reverse ++
              scope)) =
          vars.flatMap fun w => (source w).occurrences
            ((vars.takeWhile fun u => Slot.generator u != Slot.generator w).reverse ++
              v :: scope) :=
        List.flatMap_congr fun w hw => by rw [hlater w hw]
      rw [hsources]
      exact ih hvars (v :: scope)

/-- The term of a block has the occurrences of its parts, under the names that the block binds
around them, and some of its own. -/
theorem adds_assemble {kind : BlockKind} (hruns : kind.operands?.isSome) (hkind : kind.Unrepeated)
    (part : String → Term) (scope : List String) :
    Adds (kind.Own tag) ((kind.assemble tag (kind.slots.map part)).occurrences scope)
      (kind.slots.flatMap fun slot => (part slot).occurrences (kind.bindsAt slot ++ scope)) := by
  cases kind with
  | literal value ty => exact .refl []
  | operator name arity =>
      cases arity with
      | zero => exact .cons ⟨rfl, .inr rfl⟩ (.refl [])
      | succ arity =>
          rw [assemble_operator, occurrences_callName, List.flatMap_map]
          exact .cons ⟨rfl, .inl rfl⟩ (.refl _)
  | «variable» name => exact .cons ⟨rfl, .inr rfl⟩ (.refl [])
  | lambda param => simpa [slots, assemble, bindsAt, Term.occurrences] using .refl _
  | apply =>
      simpa [slots, assemble, bindsAt, occurrences_call] using .refl _
  | localLet name =>
      have hvalue : Slot.value ≠ Slot.body := by decide
      simpa [slots, assemble, bindsAt, Term.occurrences, hvalue] using .refl _
  | list items =>
      have hlist := @adds_listTerm tag scope ((list items).Own tag)
        ⟨by simp [Brings], .inl rfl⟩ ⟨by simp [Brings], .inr rfl⟩ ((slots (.list items)).map part)
      rwa [List.flatMap_map] at hlist
  | comprehension vars guards =>
      rw [assemble_comprehension]
      have hterm := @adds_comprehensionTerm tag ((comprehension vars guards).Own tag)
        (fun name hname _ => ⟨hname, .inl rfl⟩) vars hkind (fun v => part (Slot.generator v))
        ((List.range guards).map fun i => part (Slot.guard i)) (part Slot.yielded) scope
      simpa [slots, bindsAt, List.flatMap_map, takeWhile_generator_ne_guard,
        takeWhile_generator_ne_yielded, Function.comp_def] using hterm
  | cases typeName arms =>
      have hscrutinee : arms.find? (fun arm => Slot.arm arm.constructor == Slot.scrutinee) =
          none := by
        simp [Slot.arm_ne_scrutinee]
      have harms : (arms.flatMap fun arm => (part (Slot.arm arm.constructor)).occurrences
            ((BlockKind.cases typeName arms).bindsAt (Slot.arm arm.constructor) ++ scope)) =
          arms.flatMap fun arm => (part (Slot.arm arm.constructor)).occurrences
            (arm.binders.reverse ++ scope) :=
        List.flatMap_congr fun arm harm => by rw [bindsAt, find?_arm hkind harm]; rfl
      rw [assemble_cases, occurrences_callName, slots, List.flatMap_cons, List.flatMap_cons,
        List.flatMap_map, List.flatMap_map, harms, bindsAt, hscrutinee]
      simp only [occurrences_lamAll]
      exact .cons ⟨rfl, .inl rfl⟩ (.refl _)
  | function name params =>
      -- a tag on the outermost binder is on no variable
      have hterm : ((function name params).assemble tag [part Slot.result]).occurrences scope =
          (part Slot.result).occurrences (params.reverse ++ scope) := by
        rw [← occurrences_lamAll]
        cases params <;> rfl
      rw [slots, List.map_singleton, List.flatMap_singleton, hterm]
      exact .refl _
  | data decl => cases hruns
  | statement name => cases hruns

end BlockKind

end Plugboard
