import Plugboard.Proofs.GroupTypes

/-!
# Terms of blocks whose types fit

Types of the inputs and of the output of a block that fit together in the way of its kind are a
typing of its term, if the parts have the types of the inputs whatever the block binds in them.
-/

namespace Plugboard

/-- The second environment binds all names but some of these as the first one does. -/
def Env.SameBut (names : List String) (env env' : Env) : Prop :=
  ∀ name ∉ names, env'.lookup name = env.lookup name

namespace Env.SameBut

variable {names : List String} {env env' env'' : Env}

theorem refl (names : List String) (env : Env) : env.SameBut names env := fun _ _ => rfl

theorem trans (h : env.SameBut names env') (h' : env'.SameBut names env'') :
    env.SameBut names env'' := fun name hname => (h' name hname).trans (h name hname)

theorem insert {name : String} (hname : name ∈ names) (env : Env) (scheme : Scheme) :
    env.SameBut names (env.insert name scheme) := fun name' hname' => by
  rw [lookup_insert, if_neg]
  rintro rfl
  exact hname' hname

theorem insertMany {bindings : List (String × Scheme)}
    (h : ∀ binding ∈ bindings, binding.1 ∈ names) (env : Env) :
    env.SameBut names (env.insertMany bindings) := fun name hname => by
  refine lookup_insertMany_of_not_mem fun hmem => ?_
  obtain ⟨binding, hbinding, rfl⟩ := List.mem_map.1 hmem
  exact hname (h binding hbinding)

end Env.SameBut

/-- A name may have the type as an instance of its scheme. -/
abbrev Env.Gives (env : Env) : String → Ty → Prop := env.Uses fun _ => False

namespace Prelude

theorem instance_operator (args : List Ty) (result : Ty) (f : String → Ty) :
    (operator args result).Instance (.curried (args.map (Ty.bind f)) (result.bind f)) :=
  ⟨f, fun v hfree => (Scheme.closed_closed _ v hfree).elim, Ty.bind_curried f args result⟩

namespace Within

variable {env env' : Env} {bound : String → Prop} {names : List String}

theorem gives (h : Within env bound) {name : String} (args : List Ty) (result : Ty)
    (hname : name ∈ [bindName, guardName, yieldName, consName, nilName])
    (hoperator : Prelude.env.lookup name = some (operator args result)) (f : String → Ty) :
    env.Gives name (.curried (args.map (Ty.bind f)) (result.bind f)) :=
  .inl ⟨_, (h name hname).2.trans hoperator, instance_operator args result f⟩

theorem gives_cons (h : Within env bound) (a : Ty) :
    env.Gives consName (.curried [a, .list a] (.list a)) :=
  h.gives [.var "a", .list (.var "a")] (.list (.var "a")) (by simp) (by cbv) fun _ => a

theorem gives_nil (h : Within env bound) (a : Ty) : env.Gives nilName (.list a) :=
  h.gives [] (.list (.var "a")) (by simp) (by cbv) fun _ => a

theorem gives_bind (h : Within env bound) (a b : Ty) :
    env.Gives bindName (.curried [.list a, .fn a (.list b)] (.list b)) :=
  h.gives [.list (.var "a"), .fn (.var "a") (.list (.var "b"))] (.list (.var "b")) (by simp)
    (by cbv) fun v => if v = "a" then a else b

theorem gives_guard (h : Within env bound) (a : Ty) :
    env.Gives guardName (.curried [.bool, .list a] (.list a)) :=
  h.gives [.bool, .list (.var "a")] (.list (.var "a")) (by simp) (by cbv) fun _ => a

theorem gives_yield (h : Within env bound) (a : Ty) :
    env.Gives yieldName (.curried [a] (.list a)) :=
  h.gives [.var "a"] (.list (.var "a")) (by simp) (by cbv) fun _ => a

/-- What a block binds itself is none of the names that terms are put together with. -/
theorem sameBut (h : Within env (· ∈ names)) (h' : env.SameBut names env') :
    Within env' (· ∈ names) := fun name hname =>
  ⟨(h name hname).1, (h' name (h name hname).1).trans (h name hname).2⟩

end Within

end Prelude

namespace HasType

open BlockKind

variable {env : Env} {tag : Tag} {names : List String} {t : Ty}

theorem of_gives {name : String} (tag : Option Tag) (h : env.Gives name t) :
    HasType env (.var name tag) t := by
  obtain ⟨scheme, hlookup, hinst⟩ := h.resolve_right id
  exact .var tag hlookup hinst

theorem call {func : Term} {args : List Term} {types : List Ty}
    (hfunc : HasType env func (.curried types t)) (hargs : List.Forall₂ (HasType env) args types) :
    HasType env (BlockKind.call tag func args) t := by
  induction hargs generalizing func with
  | nil => exact hfunc
  | cons harg _ ih => exact ih (.app _ hfunc harg)

theorem callName {name : String} {args : List Term} {types : List Ty}
    (hname : env.Gives name (.curried types t)) (hargs : List.Forall₂ (HasType env) args types) :
    HasType env (BlockKind.callName tag name args) t :=
  .call (.of_gives none hname) hargs

theorem listTerm (hprelude : Prelude.Within env (· ∈ names)) {items : List Term} {item : Ty}
    (hitems : ∀ part ∈ items, HasType env part item) :
    HasType env (BlockKind.listTerm tag items) (.list item) := by
  induction items with
  | nil => exact .of_gives _ (hprelude.gives_nil item)
  | cons part items ih =>
      rw [List.forall_mem_cons] at hitems
      exact .callName (hprelude.gives_cons item) (.cons hitems.1 (.cons (ih hitems.2) .nil))

theorem guards (hprelude : Prelude.Within env (· ∈ names)) {guards : List Term} {rest : Term}
    (hguards : ∀ guard ∈ guards, HasType env guard .bool) (hrest : HasType env rest (.list t)) :
    HasType env (guards.foldr (fun guard rest =>
      BlockKind.callName tag Prelude.guardName [guard, rest]) rest) (.list t) := by
  induction guards with
  | nil => exact hrest
  | cons guard guards ih =>
      rw [List.forall_mem_cons] at hguards
      exact .callName (hprelude.gives_guard t) (.cons hguards.1 (.cons (ih hguards.2) .nil))

/-- Every generator binds its variable in the generators after it and in what comes after these. -/
theorem generators (hprelude : Prelude.Within env (· ∈ names))
    {generators : List (String × Term)} {rest : Term}
    (hgenerators : ∀ generator ∈ generators, generator.1 ∈ names ∧
      ∃ item, ∀ env', env.SameBut names env' → HasType env' generator.2 (.list item))
    (hrest : ∀ env', env.SameBut names env' → HasType env' rest (.list t)) :
    HasType env (generators.foldr (fun generator rest => BlockKind.callName tag Prelude.bindName
      [generator.2, .lam generator.1 rest none]) rest) (.list t) := by
  induction generators generalizing env with
  | nil => exact hrest env (.refl names env)
  | cons generator generators ih =>
      rw [List.forall_mem_cons] at hgenerators
      obtain ⟨⟨hname, item, hsource⟩, hgenerators⟩ := hgenerators
      have hinner : env.SameBut names (env.insert generator.1 (.mono item)) := .insert hname env _
      have hbody := ih (hprelude.sameBut hinner)
        (fun generator hmem => (hgenerators generator hmem).imp_right fun ⟨item, hitem⟩ =>
          ⟨item, fun env' henv' => hitem env' (hinner.trans henv')⟩)
        fun env' henv' => hrest env' (hinner.trans henv')
      exact .callName (hprelude.gives_bind item t)
        (.cons (hsource env (.refl names env)) (.cons (.lam none hbody) .nil))

/-- Types that fit a block are a typing of its term. -/
theorem assemble {kind : BlockKind} (hout : kind.hasOutput)
    (hvar : ∀ name, kind = .variable name → env.Gives name t)
    (hprelude : Prelude.Within env (· ∈ kind.binders)) {part : String → Term}
    {inputs : String → Ty} (hfits : kind.Fits env.Gives inputs t)
    (hparts : ∀ slot ∈ kind.slots, ∀ env', env.SameBut kind.binders env' →
      HasType env' (part slot) (inputs slot)) :
    HasType env (kind.assemble tag (kind.slots.map part)) t := by
  have hown : ∀ slot ∈ kind.slots, HasType env (part slot) (inputs slot) := fun slot hslot =>
    hparts slot hslot env (.refl _ env)
  cases kind with
  | literal value ty =>
      obtain rfl : t = ty := hfits
      exact .lit t _
  | «variable» name => exact .of_gives _ (hvar name rfl)
  | operator name arity =>
      cases arity with
      | zero => exact .of_gives _ hfits
      | succ arity =>
          rw [assemble_operator]
          refine .callName hfits ?_
          simp only [slots, List.forall₂_map_left_iff, List.forall₂_map_right_iff,
            List.forall₂_same]
          exact fun i hi => hown _ (List.mem_map_of_mem hi)
  | lambda param =>
      obtain ⟨a, rfl⟩ := hfits
      exact .lam _ (hparts Slot.body (by simp [slots]) _ (.insert (by simp [binders]) env _))
  | apply =>
      have hfunc : inputs Slot.func = .curried [inputs Slot.argument] t := hfits
      exact .call (hfunc ▸ hown Slot.func (by simp [slots]))
        (.cons (hown Slot.argument (by simp [slots])) .nil)
  | localLet name =>
      obtain rfl : t = inputs Slot.body := hfits
      exact .letIn _ (hown Slot.value (by simp [slots])) (Scheme.generalize_generalizes env _)
        (hparts Slot.body (by simp [slots]) _ (.insert (by simp [binders]) env _))
  | list items =>
      obtain ⟨item, hitems, rfl⟩ := hfits
      refine .listTerm hprelude (List.forall_mem_map.2 fun slot hslot => ?_)
      obtain ⟨i, hi, rfl⟩ := List.mem_map.1 hslot
      exact hitems i (List.mem_range.1 hi) ▸ hown _ hslot
  | comprehension vars guards =>
      obtain ⟨hlists, htests, rfl⟩ := hfits
      have hzip : vars.zip (vars.map fun v => part (Slot.generator v)) =
          vars.map fun v => (v, part (Slot.generator v)) := by
        rw [← List.zip_map', List.map_id']
      rw [assemble_comprehension, hzip, comprehensionTerm]
      simp only [slots, List.forall_mem_append, List.forall_mem_map, List.mem_range,
        List.forall_mem_singleton] at hparts
      refine .generators hprelude (List.forall_mem_map.2 fun v hv => ?_) fun env' henv' => ?_
      · obtain ⟨item, hitem⟩ := hlists v hv
        exact ⟨hv, item, fun env' henv' => hitem ▸ hparts.1.1 v hv env' henv'⟩
      · have hprelude' := hprelude.sameBut henv'
        refine .guards hprelude' (List.forall_mem_map.2 fun i hi => ?_)
          (.callName (hprelude'.gives_yield _) (.cons (hparts.2 env' henv') .nil))
        have hi := List.mem_range.1 hi
        exact htests i hi ▸ hparts.1.2 i hi env' henv'
  | cases typeName arms =>
      obtain ⟨fields, hfields, hgives⟩ := hfits
      rw [assemble_cases]
      refine .callName hgives (.cons (hown Slot.scrutinee (by simp [slots])) ?_)
      rw [List.forall₂_map_left_iff, List.forall₂_map_right_iff, List.forall₂_same]
      refine fun arm harm => .lamAll (hfields arm harm) (hparts _ ?_ _ (.insertMany ?_ env))
      · exact List.mem_cons_of_mem _ (List.mem_map_of_mem harm)
      · exact fun binding hmem => List.mem_flatMap.2 ⟨arm, harm, (List.of_mem_zip hmem).1⟩
  | function | data | statement => cases hout

/-- The term of a function has the types of the parameters and of the result. -/
theorem assemble_function {name : String} {params : List String} {args : List Ty}
    (hlength : args.length = params.length) {part : Term}
    (hpart : ∀ env', env.SameBut params env' → HasType env' part t) :
    HasType env ((BlockKind.function name params).assemble tag [part]) (.curried args t) := by
  cases params with
  | nil =>
      obtain rfl := List.length_eq_zero_iff.1 hlength
      exact hpart env (.refl [] env)
  | cons param params =>
      cases args with
      | nil => cases hlength
      | cons a args =>
          have hinner : env.SameBut (param :: params) (env.insert param (.mono a)) :=
            .insert List.mem_cons_self env _
          refine .lam _ (.lamAll (Nat.succ.inj hlength) (hpart _ (hinner.trans ?_)))
          exact .insertMany (fun binding hmem =>
            List.mem_cons_of_mem _ (List.of_mem_zip hmem).1) _

end HasType

end Plugboard
