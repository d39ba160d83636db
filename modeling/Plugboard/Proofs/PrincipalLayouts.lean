import Plugboard.Proofs.FittingTerms
import Plugboard.Proofs.PortTypes

/-!
# Layouts are principal

The types on a new block fit together in the way of its kind, and all other types that fit are an
instance of them. So the ports of a block are neither too special for the programs it can stand in
nor more general than its term allows.
-/

namespace Plugboard

namespace Ty

variable {args args' : List Ty} {result result' : Ty}

theorem curried_inj (hlength : args.length = args'.length) :
    curried args result = curried args' result' ↔ args = args' ∧ result = result' := by
  induction args generalizing args' with
  | nil =>
      obtain rfl := List.length_eq_zero_iff.1 hlength.symm
      exact ⟨fun h => ⟨rfl, h⟩, And.right⟩
  | cons arg args ih =>
      cases args' with
      | nil => cases hlength
      | cons arg' args' =>
          change fn arg (curried args result) = fn arg' (curried args' result') ↔ _
          rw [fn.injEq, ih (Nat.succ.inj hlength), List.cons.injEq, and_assoc]

theorem curried_uncurry (limit : Nat) (t : Ty) :
    curried (t.uncurry limit).1 (t.uncurry limit).2 = t := by
  induction limit generalizing t with
  | zero => rfl
  | succ limit ih =>
      cases t with
      | var | con => rfl
      | fn arg result => exact congrArg (fn arg) (ih result)

theorem length_uncurry {limit : Nat} {t : Ty} (h : limit ≤ t.arity) :
    (t.uncurry limit).1.length = limit := by
  induction limit generalizing t with
  | zero => rfl
  | succ limit ih =>
      cases t with
      | var | con => cases h
      | fn arg result => exact congrArg (· + 1) (ih (Nat.le_of_succ_le_succ h))

theorem arity_le_bind (t : Ty) (f : String → Ty) : t.arity ≤ (t.bind f).arity := by
  induction t with
  | var | con => exact Nat.zero_le _
  | fn arg result _ ih => exact Nat.succ_le_succ ih

end Ty

/-- An arm for every constructor, which binds the fields under their declared names. -/
def DataDecl.arms (d : DataDecl) : List Arm :=
  d.constructors.map fun c => ⟨c.name, c.fields.map (·.1)⟩

/-- The names of the constructors are different, and no parameter is called like the result of the
eliminator. -/
structure DataDecl.Proper (d : DataDecl) : Prop where
  constructors : (d.constructors.map (·.name)).Nodup
  params : resultVar ∉ d.params

namespace DataDecl

variable {d : DataDecl}

theorem Proper.constructor?_eq (h : d.Proper) {c : Constructor} (hc : c ∈ d.constructors) :
    d.constructor? c.name = some c := by
  have hsome : (d.constructor? c.name).isSome :=
    List.find?_isSome.2 ⟨c, hc, beq_self_eq_true c.name⟩
  obtain ⟨c', hc'⟩ := Option.isSome_iff_exists.1 hsome
  obtain ⟨hsame, -⟩ := List.find?_eq_some_iff_append.1 hc'
  rw [hc', List.inj_on_of_nodup_map h.constructors (List.mem_of_find?_eq_some hc') hc
    (eq_of_beq hsame)]

theorem Proper.unrepeated_cases (h : d.Proper) (typeName : String) :
    (BlockKind.cases typeName d.arms).Unrepeated := by
  change (d.arms.map (·.constructor)).Nodup
  rw [arms, List.map_map]
  exact h.constructors

/-- What an eliminator is used as: with some types for the parameters, it takes a value and a
function of the fields for every constructor. -/
theorem Ground.instance_caseScheme_iff (h : d.Ground) {t : Ty} :
    d.caseScheme.Instance t ↔ ∃ values : String → Ty,
      t = .curried (d.self.bind values :: d.constructors.map fun c =>
        .curried (c.fieldTypes.map (Ty.bind values)) (values resultVar)) (values resultVar) := by
  have hbody : ∀ values : String → Ty, d.caseScheme.body.bind values =
      .curried (d.self.bind values :: d.constructors.map fun c =>
        .curried (c.fieldTypes.map (Ty.bind values)) (values resultVar)) (values resultVar) := by
    intro values
    rw [caseScheme, Ty.bind_curried, List.map_cons, List.map_map]
    simp only [Function.comp_def, armType, Ty.bind_curried, Ty.bind]
  constructor
  · rintro ⟨values, -, rfl⟩
    exact ⟨values, hbody values⟩
  · rintro ⟨values, rfl⟩
    exact ⟨values, fun v hfree => (h.closed_caseScheme v hfree).elim, hbody values⟩

end DataDecl

/-- These types fit together in the way of the kind, and all others that do are an instance of
them. -/
structure BlockKind.Principal (uses : String → Ty → Prop) (kind : BlockKind)
    (inputs : String → Ty) (output : Ty) : Prop where
  fits : kind.Fits uses inputs output
  general : ∀ {inputs' output'}, kind.Fits uses inputs' output' → ∃ f : String → Ty,
    (∀ slot ∈ kind.slots, (inputs slot).bind f = inputs' slot) ∧ output.bind f = output'

theorem List.lookup_eq_some_of_mem {α β : Type} [DecidableEq α] {l : List (α × β)} {a : α} {b : β}
    (hnodup : (l.map Prod.fst).Nodup) (h : (a, b) ∈ l) : l.lookup a = some b := by
  induction l with
  | nil => cases h
  | cons entry l ih =>
      rw [List.map_cons, List.nodup_cons] at hnodup
      rw [List.lookup_cons]
      rcases List.mem_cons.1 h with rfl | h
      · rw [beq_self_eq_true]
      · rw [beq_eq_false_iff_ne.2]
        · exact ih hnodup.2 h
        · rintro rfl
          exact hnodup.1 (List.mem_map.2 ⟨_, h, rfl⟩)

namespace VarPool

variable {pool : VarPool}

theorem exists_values₂ (hpool : pool.Distinct) (t u : Ty) :
    ∃ f : String → Ty, f pool.allocate.1 = t ∧ f pool.allocate.2.allocate.1 = u := by
  have hissues := allocate_issues hpool
  obtain ⟨r, hr, -⟩ := hissues.exists_extension .var t
  obtain ⟨f, hf, hold⟩ := (allocate_issues hissues.distinct).exists_extension r u
  exact ⟨f, (hold _ hissues.used).trans hr, hf⟩

end VarPool

namespace Layout

/-- The type of the first socket for a slot. -/
def input (layout : Layout) (slot : String) : Ty := (layout.inputs.lookup slot).getD default

/-- The types of a layout are principal for a kind with an output. -/
def Principal (uses : String → Ty → Prop) (kind : BlockKind) (layout : Layout) : Prop :=
  kind.Principal uses layout.input (layout.output.getD default)

/-- The parameters and the result of a function can be given any types. -/
def Open (params : List String) (layout : Layout) : Prop :=
  ∀ (values : String → Ty) (result : Ty), ∃ f : String → Ty,
    (∀ name ∈ params, (layout.params[name]?).map (Ty.bind f) = some (values name)) ∧
      (layout.input Slot.result).bind f = result

/-- The types of a layout are as general as those of a block of the kind can be. -/
inductive MostGeneral (uses : String → Ty → Prop) (layout : Layout) : BlockKind → Prop
  | output {kind : BlockKind} (hout : kind.hasOutput) (hprincipal : layout.Principal uses kind) :
      MostGeneral uses layout kind
  | function {name : String} {params : List String} (hopen : layout.Open params) :
      MostGeneral uses layout (.function name params)

variable {layout : Layout} {kind : BlockKind} {uses : String → Ty → Prop} {pool : VarPool}

namespace Fits

variable (h : layout.Fits kind) (hkind : kind.Unrepeated)

include h hkind

theorem input_eq {slot : String} {t : Ty} (hmem : (slot, t) ∈ layout.inputs) :
    layout.input slot = t := by
  rw [input, List.lookup_eq_some_of_mem (h.slots ▸ hkind.nodup_slots) hmem]
  rfl

theorem inputs_eq : layout.inputs = kind.slots.map fun slot => (slot, layout.input slot) := by
  rw [← h.slots, List.map_map]
  refine (List.map_id' layout.inputs).symm.trans (List.map_congr_left fun entry hentry => ?_)
  exact Prod.ext rfl (h.input_eq hkind (t := entry.2) hentry).symm

end Fits

theorem principal_literal (value : String) (ty : Ty) :
    (literal ty).Principal uses (.literal value ty) where
  fits := rfl
  general {_ output'} h := ⟨.var, fun _ hslot => (List.not_mem_nil hslot).elim,
    (Ty.bind_var ty).trans (show output' = ty from h).symm⟩

theorem principal_lambda (hpool : pool.Distinct) (param : String) :
    (lambda.run pool).1.Principal uses (.lambda param) where
  fits := ⟨_, rfl⟩
  general {inputs' output'} h := by
    obtain ⟨a, rfl⟩ := h
    obtain ⟨f, ha, hbody⟩ := VarPool.exists_values₂ hpool a (inputs' Slot.body)
    exact ⟨f, List.forall_mem_singleton.2 hbody, congrArg₂ Ty.fn ha hbody⟩

theorem principal_apply (hpool : pool.Distinct) : (apply.run pool).1.Principal uses .apply where
  fits := rfl
  general {inputs' output'} h := by
    obtain ⟨f, harg, hresult⟩ := VarPool.exists_values₂ hpool (inputs' Slot.argument) output'
    refine ⟨f, List.forall_mem_cons.2 ⟨?_, List.forall_mem_singleton.2 harg⟩, hresult⟩
    exact (congrArg₂ Ty.fn harg hresult).trans (show inputs' Slot.func = _ from h).symm

theorem principal_localLet (hpool : pool.Distinct) (name : String) :
    (localLet.run pool).1.Principal uses (.localLet name) where
  fits := rfl
  general {inputs' output'} h := by
    obtain ⟨f, hvalue, hbody⟩ :=
      VarPool.exists_values₂ hpool (inputs' Slot.value) (inputs' Slot.body)
    exact ⟨f, List.forall_mem_cons.2 ⟨hvalue, List.forall_mem_singleton.2 hbody⟩,
      hbody.trans (show output' = _ from h).symm⟩

theorem principal_list (hpool : pool.Distinct) (items : Nat) :
    ((list items).run pool).1.Principal uses (.list items) := by
  have hinput : ∀ i < items,
      ((list items).run pool).1.input (Slot.item i) = .var pool.allocate.1 := fun i hi =>
    (fits_list items pool).input_eq trivial
      (List.mem_map.2 ⟨i, List.mem_range.2 hi, rfl⟩)
  refine ⟨⟨_, hinput, rfl⟩, fun {inputs' output'} h => ?_⟩
  obtain ⟨item, hitems, rfl⟩ := h
  obtain ⟨f, hf, -⟩ := (VarPool.allocate_issues hpool).exists_extension .var item
  refine ⟨f, List.forall_mem_map.2 fun i hi => ?_, congrArg Ty.list hf⟩
  replace hi := List.mem_range.1 hi
  rw [hinput i hi, hitems i hi]
  exact hf

/-- The parameters can be given any values, and so can a variable that is drawn after them. -/
theorem exists_values_freshParams (hpool : pool.Distinct) (names : List String)
    (values : String → Ty) (t : Ty) : ∃ f : String → Ty,
      (∀ entry ∈ ((freshParams names).run pool).1, entry.2.bind f = values entry.1) ∧
        f ((freshParams names).run pool).2.allocate.1 = t := by
  suffices hparams : ∀ r : String → Ty, ∃ f : String → Ty,
      (∀ entry ∈ ((freshParams names).run pool).1, entry.2.bind f = values entry.1) ∧
        ∀ v, pool.isUsed v → f v = r v by
    obtain ⟨f, hf, -⟩ := hparams .var
    obtain ⟨hext, hover⟩ := draws_freshParams hpool.keeps names
    obtain ⟨q, hq, hold⟩ :=
      (VarPool.allocate_issues (hext.distinct hpool)).exists_extension f t
    refine ⟨q, fun entry hentry => ?_, hq⟩
    exact (Ty.bind_congr fun v hv => hold v (hover entry hentry v hv).1).trans (hf entry hentry)
  induction names generalizing pool with
  | nil => exact fun r => ⟨r, fun entry hentry => (List.not_mem_nil hentry).elim, fun _ _ => rfl⟩
  | cons name names ih =>
      intro r
      have hissues := VarPool.allocate_issues hpool
      obtain ⟨r', hr', hold⟩ := hissues.exists_extension r (values name)
      obtain ⟨f, hf, hf'⟩ := ih hissues.distinct r'
      refine ⟨f, ?_, fun v hv => (hf' v (hissues.keeps hv)).trans (hold v hv)⟩
      rw [freshParams, mapM_cons_fst, List.forall_mem_cons]
      exact ⟨(hf' _ hissues.used).trans hr', hf⟩

theorem principal_comprehension (hpool : pool.Distinct) {vars : List String} (hvars : vars.Nodup)
    (guards : Nat) :
    ((comprehension vars guards).run pool).1.Principal uses (.comprehension vars guards) := by
  have hfits := fits_comprehension vars guards pool
  have hlist : ∀ entry ∈ ((freshParams vars).run pool).1,
      ((comprehension vars guards).run pool).1.input (Slot.generator entry.1) = entry.2.list :=
    fun entry hentry => hfits.input_eq hvars
      (List.mem_append_left _ (List.mem_append_left _ (List.mem_map.2 ⟨entry, hentry, rfl⟩)))
  have hguard : ∀ i < guards,
      ((comprehension vars guards).run pool).1.input (Slot.guard i) = .bool := fun i hi =>
    hfits.input_eq hvars (List.mem_append_left _
      (List.mem_append_right _ (List.mem_map.2 ⟨i, List.mem_range.2 hi, rfl⟩)))
  have hyielded : ((comprehension vars guards).run pool).1.input Slot.yielded =
      .var ((freshParams vars).run pool).2.allocate.1 :=
    hfits.input_eq hvars (List.mem_append_right _ (List.mem_singleton_self _))
  have hentry : ∀ v ∈ vars, ∃ entry ∈ ((freshParams vars).run pool).1, entry.1 = v := by
    intro v hv
    rw [← map_fst_freshParams vars pool] at hv
    exact List.mem_map.1 hv
  refine ⟨⟨fun v hv => ?_, hguard, congrArg Ty.list hyielded.symm⟩, fun {inputs' output'} h => ?_⟩
  · obtain ⟨entry, hmem, rfl⟩ := hentry v hv
    exact ⟨entry.2, hlist entry hmem⟩
  · obtain ⟨hlists, htests, rfl⟩ := h
    have hitems : ∀ v, ∃ item, v ∈ vars → inputs' (Slot.generator v) = .list item := fun v => by
      by_cases hv : v ∈ vars
      · exact (hlists v hv).imp fun _ h _ => h
      · exact ⟨default, fun h => (hv h).elim⟩
    choose item hitem using hitems
    obtain ⟨f, hf, helement⟩ :=
      exists_values_freshParams hpool vars item (inputs' Slot.yielded)
    refine ⟨f, ?_, congrArg Ty.list helement⟩
    simp only [BlockKind.slots, List.forall_mem_append, List.forall_mem_map, List.mem_range,
      List.forall_mem_singleton]
    refine ⟨⟨fun v hv => ?_, fun i hi => ?_⟩, ?_⟩
    · rw [hitem v hv]
      obtain ⟨entry, hmem, rfl⟩ := hentry v hv
      rw [hlist entry hmem, ← hf entry hmem]
      rfl
    · rw [hguard i hi, htests i hi]
      rfl
    · rw [hyielded]
      exact helement

theorem run_ofTy {t : Ty} {arity : Nat} (h : arity ≤ t.arity) : (ofTy t arity).run pool =
    (⟨some (t.uncurry arity).2, arguments (t.uncurry arity).1, ∅⟩, pool) := by
  have hlength := Ty.length_uncurry h
  rw [ofTy]
  dsimp only
  rw [if_neg (by omega)]
  rfl

/-- With all its arguments, the call of a name is used as its scheme says. -/
theorem principal_operator (hpool : pool.Distinct) {name : String} {scheme : Scheme}
    (hclosed : scheme.Closed) (huses : ∀ t, uses name t ↔ scheme.Instance t) :
    ((operator (some scheme) scheme.body.arity).run pool).1.Principal uses
      (.operator name scheme.body.arity) := by
  have hrenews := scheme.renewal_renews hpool
  have harity := scheme.body.arity_le_bind (scheme.renewal pool)
  have hfits := fits_operator (some scheme) name scheme.body.arity pool
  have hrun : ((operator (some scheme) scheme.body.arity).run pool).1 =
      ((ofTy (scheme.body.bind (scheme.renewal pool)) scheme.body.arity).run
        (scheme.instantiate pool).2).1 := rfl
  rw [hrun, run_ofTy harity] at hfits ⊢
  have hlength := Ty.length_uncurry harity
  have hwhole := Ty.curried_uncurry scheme.body.arity (scheme.body.bind (scheme.renewal pool))
  generalize (scheme.body.bind (scheme.renewal pool)).uncurry scheme.body.arity = parts
    at hfits hlength hwhole ⊢
  obtain ⟨args, result⟩ := parts
  dsimp only at hfits hlength hwhole ⊢
  have hargs : (List.range scheme.body.arity).map (fun i =>
      Layout.input ⟨some result, arguments args, ∅⟩ (Slot.arg i)) = args := by
    have hinputs := congrArg (List.map Prod.snd) (hfits.inputs_eq trivial)
    simp only [arguments, BlockKind.slots, List.map_map, Function.comp_def] at hinputs
    exact hinputs.symm.trans (List.zipIdx_map_fst 0 args)
  refine ⟨(huses _).2 ?_, fun {inputs' output'} h => ?_⟩
  · refine ⟨scheme.renewal pool, fun v hv => hrenews.away v hv.2, ?_⟩
    rw [hargs]
    exact hwhole.symm
  · obtain ⟨values, -, heq⟩ := (huses _).1 h
    obtain ⟨f, -, hf⟩ := hrenews.exists_extension .var values
    have hbind : (scheme.body.bind (scheme.renewal pool)).bind f = scheme.body.bind values := by
      rw [Ty.bind_bind]
      refine Ty.bind_congr fun v hv => hf v ?_
      by_contra hnot
      exact hclosed v ⟨hv, hnot⟩
    rw [heq, ← hwhole, Ty.bind_curried, Ty.curried_inj (by simp [hlength])] at hbind
    obtain ⟨hinputs, hresult⟩ := hbind
    rw [← hargs, List.map_map, List.map_inj_left] at hinputs
    exact ⟨f, List.forall_mem_map.2 hinputs, hresult⟩

/-- With an arm for every constructor, the eliminator of a type is used as its scheme says. -/
theorem principal_cases (hpool : pool.Distinct) {decl : DataDecl} (hground : decl.Ground)
    (hproper : decl.Proper) {typeName : String}
    (huses : ∀ t, uses (caseName typeName) t ↔ decl.caseScheme.Instance t) :
    ((cases (some decl) decl.arms).run pool).1.Principal uses (.cases typeName decl.arms) := by
  -- the scrutinee renews the parameters, and the result is a variable of its own
  let scheme := Scheme.closed decl.self
  have hrenews := scheme.renewal_renews hpool
  have hissues := VarPool.allocate_issues hrenews.distinct
  have hparams : ∀ v ∈ decl.self.vars, v ∈ scheme.vars := fun v hv => by
    by_contra hnot
    exact Scheme.closed_closed decl.self v ⟨hv, hnot⟩
  have hfits := fits_cases (some decl) typeName decl.arms pool
  have hkind := hproper.unrepeated_cases typeName
  have hscrutinee : ((cases (some decl) decl.arms).run pool).1.input Slot.scrutinee =
      decl.self.bind (scheme.renewal pool) := hfits.input_eq hkind List.mem_cons_self
  have harm : ∀ c ∈ decl.constructors,
      ((cases (some decl) decl.arms).run pool).1.input (Slot.arm c.name) =
        .var (scheme.instantiate pool).2.allocate.1 := fun c hc =>
    hfits.input_eq hkind (List.mem_cons_of_mem _
      (List.mem_map.2 ⟨_, List.mem_map_of_mem hc, rfl⟩))
  have houtput : ((cases (some decl) decl.arms).run pool).1.output =
      some (.var (scheme.instantiate pool).2.allocate.1) := rfl
  generalize ((cases (some decl) decl.arms).run pool).1 = layout at hscrutinee harm houtput ⊢
  rw [Principal, houtput]
  refine ⟨?_, fun {inputs' output'} h => ?_⟩
  · let values : String → Ty := fun v =>
      if v = DataDecl.resultVar then .var (scheme.instantiate pool).2.allocate.1
      else scheme.renewal pool v
    have hresult : values DataDecl.resultVar = .var (scheme.instantiate pool).2.allocate.1 :=
      if_pos rfl
    have hself : decl.self.bind values = decl.self.bind (scheme.renewal pool) := by
      refine Ty.bind_congr fun v hv => if_neg ?_
      rintro rfl
      exact hproper.params (decl.over_self _ hv)
    refine ⟨fun arm => ((decl.constructor? arm.constructor).elim [] Constructor.fieldTypes).map
      (Ty.bind values), List.forall_mem_map.2 fun c hc => ?_,
      (huses _).2 (hground.instance_caseScheme_iff.2 ⟨values, ?_⟩)⟩
    · simp [hproper.constructor?_eq hc, Constructor.fieldTypes]
    · rw [hscrutinee, hself, hresult, DataDecl.arms, List.map_map]
      refine congrArg (fun args => Ty.curried (_ :: args) _) (List.map_congr_left fun c hc => ?_)
      simp only [Function.comp_apply, hproper.constructor?_eq hc, harm c hc, Option.elim]
  · obtain ⟨fields, hfields, hused⟩ := h
    obtain ⟨values, heq⟩ := hground.instance_caseScheme_iff.1 ((huses _).1 hused)
    rw [Ty.curried_inj (by simp [DataDecl.arms]), List.cons.injEq, DataDecl.arms, List.map_map,
      List.map_inj_left] at heq
    obtain ⟨⟨hself, hbodies⟩, rfl⟩ := heq
    obtain ⟨r, -, hr⟩ := hrenews.exists_extension .var values
    obtain ⟨f, hf, hold⟩ := hissues.exists_extension r (values DataDecl.resultVar)
    refine ⟨f, List.forall_mem_cons.2 ⟨?_, ?_⟩, hf⟩
    · rw [hscrutinee, hself, Ty.bind_bind]
      refine Ty.bind_congr fun v hv => ?_
      obtain ⟨w, hw, -, hused⟩ := hrenews.fresh v (hparams v hv)
      rw [← hr v (hparams v hv), hw]
      exact hold w hused
    · simp only [DataDecl.arms, List.map_map, List.forall_mem_map, Function.comp_apply]
      intro c hc
      have hbody := hbodies c hc
      rw [Function.comp_apply, Ty.curried_inj] at hbody
      · rw [harm c hc, hbody.2]
        exact hf
      · have hlength := hfields _ (List.mem_map_of_mem hc)
        simpa [Constructor.fieldTypes] using hlength

theorem open_function (hpool : pool.Distinct) {params : List String} (hparams : params.Nodup) :
    ((function params).run pool).1.Open params := by
  intro values result
  obtain ⟨f, hf, hresult⟩ := exists_values_freshParams hpool params values result
  refine ⟨f, fun name hname => ?_, hresult⟩
  have hnames := map_fst_freshParams params pool
  rw [← hnames] at hname hparams
  obtain ⟨entry, hentry, rfl⟩ := List.mem_map.1 hname
  have hlookup : ((function params).run pool).1.params[entry.1]? = some entry.2 :=
    getElem?_ofList_eq_some hentry fun t ht =>
      congrArg Prod.snd (List.inj_on_of_nodup_map hparams ht hentry rfl)
  rw [hlookup, Option.map_some, hf entry hentry]

end Layout

theorem Env.gives_iff {env : Env} {name : String} {scheme : Scheme}
    (h : env.lookup name = some scheme) (t : Ty) : env.Gives name t ↔ scheme.Instance t := by
  rw [Gives, Uses, h, or_false]
  exact ⟨fun ⟨_, heq, hinst⟩ => Option.some.inj heq ▸ hinst, fun hinst => ⟨scheme, rfl, hinst⟩⟩

namespace Workspace

/-- The environment binds built-in operators, constructors and eliminators to the schemes that
calls and cases are laid out by. -/
structure Knows (ws : Workspace) (env : Env) : Prop where
  operator : ∀ {name scheme}, ws.operatorScheme? name = some scheme → env.lookup name = some scheme
  eliminator : ∀ {typeName decl}, ws.declaration? typeName = some decl →
    env.lookup (caseName typeName) = some decl.caseScheme

/-- What a block of the kind stands for is settled by the kind and the declarations: a call is of
a built-in operator or a constructor and has all its arguments, a case has all constructors, and
the parameters of a function are different. -/
def Settles (ws : Workspace) : BlockKind → Prop
  | .operator name arity =>
      ∃ scheme, ws.operatorScheme? name = some scheme ∧ arity = scheme.body.arity
  | .cases typeName arms => ∃ decl, ws.declaration? typeName = some decl ∧ arms = decl.arms
  | .function _ params => params.Nodup
  | .variable _ | .data _ | .statement _ => False
  | .literal _ _ | .lambda _ | .apply | .localLet _ | .list _ | .comprehension _ _ => True

end Workspace

namespace WorkspaceM

open Layout Workspace

variable {ws : Workspace}

/-- The types of a new block are as general as they can be. -/
theorem ends_layoutFor_mostGeneral (hground : ws.main.Ground) (hpool : ws.pool.Distinct)
    (hproper : ∀ d ∈ ws.declarations, d.Proper) {kind : BlockKind} (hkind : kind.Unrepeated)
    (hsettles : ws.Settles kind) :
    Ends (layoutFor kind) ws (fun layout _ => ∀ env : Env, ws.Knows env →
      layout.MostGeneral env.Gives kind) fun _ => False := by
  cases kind with
  | literal value ty => exact fun _ _ => .output rfl (principal_literal value ty)
  | operator name arity =>
      obtain ⟨scheme, hscheme, rfl⟩ := hsettles
      rw [layoutFor, ends_bind, ends_query, calleeScheme?, hscheme]
      exact fun env hknows => .output rfl (principal_operator hpool
        (closed_of_operatorScheme? hground hscheme) (Env.gives_iff (hknows.operator hscheme)))
  | lambda param => exact fun _ _ => .output rfl (principal_lambda hpool param)
  | apply => exact fun _ _ => .output rfl (principal_apply hpool)
  | localLet name => exact fun _ _ => .output rfl (principal_localLet hpool name)
  | list items => exact fun _ _ => .output rfl (principal_list hpool items)
  | comprehension vars guards =>
      exact fun _ _ => .output rfl (principal_comprehension hpool hkind guards)
  | cases typeName arms =>
      obtain ⟨decl, hdecl, rfl⟩ := hsettles
      have hmem : decl ∈ ws.declarations := List.mem_of_find?_eq_some hdecl
      rw [layoutFor, ends_bind, ends_get, hdecl]
      exact fun env hknows => .output rfl (principal_cases hpool
        (ground_of_mem_declarations hground hmem) (hproper decl hmem)
        (Env.gives_iff (hknows.eliminator hdecl)))
  | function name params => exact fun _ _ => .function (open_function hpool hsettles)
  | «variable» | data | statement => exact hsettles.elim

end WorkspaceM

end Plugboard
