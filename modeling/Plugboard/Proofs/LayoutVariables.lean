import Plugboard.Proofs.Allocation
import Plugboard.Proofs.Contents
import Plugboard.Proofs.Slots

/-!
# The variables of a layout

A layout has only variables that have been allocated for it: it instantiates nothing but closed
schemes, as long as literals have no variables and the fields of constructors mention only the
parameters of their declaration.
-/

namespace Plugboard

namespace VarPool

/-- The names of a pool that are in use. -/
abbrev Uses (pool : VarPool) (v : String) : Prop := pool.isUsed v = true

/-- The names in use but for the old ones. -/
def Own (old : String → Prop) (pool : VarPool) (v : String) : Prop := pool.Uses v ∧ ¬ old v

/-- All old names are in use, so that none of them is handed out. -/
structure Keeps (old : String → Prop) (pool : VarPool) : Prop where
  distinct : pool.Distinct
  used : ∀ v, old v → pool.Uses v

variable {old : String → Prop} {pool pool' : VarPool}

theorem Distinct.keeps (h : pool.Distinct) : pool.Keeps fun _ => False := ⟨h, fun _ => False.elim⟩

theorem own_false : pool.Own (fun _ => False) = pool.Uses := by
  funext v
  simp [Own]

namespace Keeps

theorem extended (h : pool.Keeps old) (hext : pool.Extended pool') : pool'.Keeps old :=
  ⟨hext.distinct h.distinct, fun v hv => hext.keeps h.distinct (h.used v hv)⟩

theorem own (h : pool.Keeps old) (hext : pool.Extended pool') {v : String} (hv : pool.Own old v) :
    pool'.Own old v :=
  ⟨hext.keeps h.distinct hv.1, hv.2⟩

/-- A name that was not in use before is none of the old ones. -/
theorem own_of_fresh (h : pool.Keeps old) {v : String} (hunused : ¬ pool.Uses v)
    (hused : pool'.Uses v) : pool'.Own old v :=
  ⟨hused, fun hold => hunused (h.used v hold)⟩

theorem own_allocate (h : pool.Keeps old) : pool.allocate.2.Own old pool.allocate.1 :=
  let hissues := allocate_issues h.distinct
  h.own_of_fresh (by simp [hissues.fresh]) hissues.used

end Keeps

end VarPool

/-- Every binding of a map that is made from a list is in the list. -/
theorem mem_of_getElem?_ofList {α β : Type} [Ord α] [Std.TransOrd α] [Std.LawfulEqOrd α]
    [DecidableEq α] {l : List (α × β)} {a : α} {b : β}
    (h : (Std.ExtTreeMap.ofList l)[a]? = some b) : (a, b) ∈ l := by
  rw [Std.ExtTreeMap.ofList_eq_insertMany_empty, Std.ExtTreeMap.getElem?_insertMany_list,
    Std.ExtTreeMap.getElem?_empty, Option.or_none, List.findSomeRev?_eq_findSome?_reverse] at h
  obtain ⟨_, ⟨a', b'⟩, _, hsplit, hmatch, -⟩ := List.findSome?_eq_some_iff.1 h
  have hmem : (a', b') ∈ l := List.mem_reverse.1 (hsplit ▸ by simp)
  rw [Option.ite_none_right_eq_some, Std.LawfulEqCmp.compare_eq_iff_eq, Option.some.injEq] at hmatch
  obtain ⟨rfl, rfl⟩ := hmatch
  exact hmem

/-- The fields of the constructors mention only the parameters. -/
def DataDecl.Ground (d : DataDecl) : Prop :=
  ∀ c ∈ d.constructors, ∀ t ∈ c.fieldTypes, t.Over (· ∈ d.params)

/-- A literal has no type variable, and a declaration none but its parameters. -/
def BlockKind.Ground : BlockKind → Prop
  | .literal _ ty => ty.vars = []
  | .data decl => decl.Ground
  | _ => True

/-- All schemes are closed. -/
def Env.Closed (env : Env) : Prop :=
  ∀ name scheme, env.lookup name = some scheme → scheme.Closed

namespace Env.Closed

variable {env : Env}

theorem empty : Env.empty.Closed := fun name scheme h => by
  simp [lookup, Env.empty] at h

theorem insert (h : env.Closed) (name : String) {scheme : Scheme} (hscheme : scheme.Closed) :
    (env.insert name scheme).Closed := by
  intro name' scheme' hlookup
  rw [lookup_insert] at hlookup
  split at hlookup
  · cases hlookup
    exact hscheme
  · exact h name' scheme' hlookup

theorem insertMany (h : env.Closed) {bindings : List (String × Scheme)}
    (hbindings : ∀ binding ∈ bindings, binding.2.Closed) : (env.insertMany bindings).Closed := by
  induction bindings generalizing env with
  | nil => exact h
  | cons binding bindings ih =>
      rw [List.forall_mem_cons] at hbindings
      exact ih (h.insert binding.1 hbindings.1) hbindings.2

end Env.Closed

theorem Prelude.closed_env : Prelude.env.Closed := by
  refine Env.Closed.empty.insertMany ?_
  simp only [operators, operator, List.forall_mem_cons, List.not_mem_nil, false_imp_iff,
    implies_true, Scheme.closed_closed, and_self]

namespace DataDecl

variable {d : DataDecl}

theorem over_self (d : DataDecl) : d.self.Over (· ∈ d.params) := by
  rw [self, Ty.Over.con_iff]
  simp only [List.mem_map, forall_exists_index, and_imp, forall_apply_eq_imp_iff₂]
  exact fun v hv => .var hv

theorem Ground.closed_constructorScheme (h : d.Ground) {c : Constructor}
    (hc : c ∈ d.constructors) : (d.constructorScheme c).Closed :=
  fun v ⟨hv, hfree⟩ => hfree (Ty.Over.curried_iff.2 ⟨h c hc, d.over_self⟩ v hv)

theorem Ground.closed_caseScheme (h : d.Ground) : d.caseScheme.Closed := by
  have hresult : (Ty.var resultVar).Over (· ∈ d.params ++ [resultVar]) := .var (by simp)
  have hself : d.self.Over (· ∈ d.params ++ [resultVar]) := d.over_self.mono (by simp +contextual)
  have hbody : d.caseScheme.body.Over (· ∈ d.params ++ [resultVar]) := by
    refine Ty.Over.curried_iff.2 ⟨List.forall_mem_cons.2 ⟨hself, fun t ht => ?_⟩, hresult⟩
    obtain ⟨c, hc, rfl⟩ := List.mem_map.1 ht
    refine Ty.Over.curried_iff.2 ⟨fun u hu => ?_, hresult⟩
    exact (h c hc u hu).mono (by simp +contextual)
  exact fun v ⟨hv, hfree⟩ => hfree (hbody v hv)

end DataDecl

/-- All kinds on a canvas are ground. -/
abbrev Graph.Ground (g : Graph) : Prop :=
  ∀ {b : BlockId} {block : Block}, g.blocks[b]? = some block → block.kind.Ground

namespace Workspace

variable {ws : Workspace}

theorem ground_of_mem_declarations (h : ws.main.Ground) {d : DataDecl}
    (hd : d ∈ ws.declarations) : d.Ground := by
  rw [declarations, List.mem_filterMap] at hd
  obtain ⟨block, hblock, hd⟩ := hd
  obtain ⟨b, hb⟩ := mem_values_iff.1 hblock
  have hground := h hb
  cases hkind : block.kind <;> rw [hkind] at hd hground <;> cases hd
  exact hground

theorem closed_of_operatorScheme? (h : ws.main.Ground) {name : String} {scheme : Scheme}
    (hscheme : ws.operatorScheme? name = some scheme) : scheme.Closed := by
  rw [operatorScheme?, Option.or_eq_some_iff] at hscheme
  rcases hscheme with hlookup | ⟨-, hfind⟩
  · exact Prelude.closed_env name scheme hlookup
  · obtain ⟨_, d, _, hsplit, hfound, -⟩ := List.findSome?_eq_some_iff.1 hfind
    have hd : d ∈ ws.declarations := hsplit ▸ by simp
    obtain ⟨c, hc, rfl⟩ := Option.map_eq_some_iff.1 hfound
    exact (ground_of_mem_declarations h hd).closed_constructorScheme
      (List.mem_of_find?_eq_some hc)

theorem closed_of_functionScheme? {name : String} {scheme : Scheme}
    (hscheme : ws.functionScheme? name = .ok (some scheme)) : scheme.Closed := by
  rw [functionScheme?] at hscheme
  cases hfind : ws.functionNamed? name with
  | none =>
      rw [hfind] at hscheme
      cases hscheme
  | some found =>
      obtain ⟨b, params⟩ := found
      rw [hfind] at hscheme
      obtain ⟨block, -, hscheme⟩ := bind_eq_ok.1 hscheme
      cases hargs : params.mapM (block.params[·]?) with
      | none =>
          simp only [hargs] at hscheme
          cases hscheme
      | some args =>
          simp only [hargs] at hscheme
          obtain ⟨result, -, hscheme⟩ := bind_eq_ok.1 hscheme
          obtain ⟨ty, -, hscheme⟩ := bind_eq_ok.1 hscheme
          obtain ⟨t, -, rfl⟩ := Option.map_eq_some_iff.1 (Except.ok.inj hscheme)
          exact Scheme.closed_closed _

theorem closed_of_calleeScheme? (h : ws.main.Ground) {name : String} {scheme : Scheme}
    (hscheme : ws.calleeScheme? name = .ok (some scheme)) : scheme.Closed := by
  rw [calleeScheme?] at hscheme
  cases hop : ws.operatorScheme? name with
  | some scheme' =>
      rw [hop] at hscheme
      cases hscheme
      exact closed_of_operatorScheme? h hop
  | none =>
      rw [hop] at hscheme
      exact closed_of_functionScheme? hscheme

theorem closed_declaredEnv (h : ws.main.Ground) : ws.declaredEnv.Closed := by
  have hdecls : ∀ d ∈ ws.declarations, d.Ground := fun _ => ground_of_mem_declarations h
  rw [declaredEnv]
  generalize ws.declarations = decls at hdecls
  suffices hfold : ∀ env : Env, env.Closed → (decls.foldl (fun env d =>
      (env.insertMany (d.constructors.map fun c => (c.name, d.constructorScheme c))).insert
        (caseName d.name) d.caseScheme) env).Closed from hfold _ Prelude.closed_env
  induction decls with
  | nil => exact fun env henv => henv
  | cons d decls ih =>
      rw [List.forall_mem_cons] at hdecls
      refine fun env henv => ih hdecls.2 _ ?_
      refine (henv.insertMany fun binding hmem => ?_).insert _ hdecls.1.closed_caseScheme
      obtain ⟨c, hc, rfl⟩ := List.mem_map.1 hmem
      exact hdecls.1.closed_constructorScheme hc

end Workspace

/-- Run from the pool, an action does nothing but allocate, and gives what `R` says. -/
def Draws {α : Type} (x : PoolM α) (pool : VarPool) (R : α → VarPool → Prop) : Prop :=
  pool.Extended (x.run pool).2 ∧ R (x.run pool).1 (x.run pool).2

namespace Draws

variable {α β : Type} {x : PoolM α} {pool : VarPool} {old : String → Prop}
  {R R' : α → VarPool → Prop}

theorem pure {a : α} (h : R a pool) : Draws (Pure.pure a) pool R := ⟨.refl pool, h⟩

theorem bind {f : α → PoolM β} {R' : β → VarPool → Prop} (hx : Draws x pool R)
    (hf : ∀ a pool', pool.Extended pool' → R a pool' → Draws (f a) pool' R') :
    Draws (x >>= f) pool R' :=
  let hrest := hf _ _ hx.1 hx.2
  ⟨hx.1.trans hrest.1, hrest.2⟩

/-- What holds of one answer holds of all of them in the end, if allocations do not disturb it. -/
theorem mapM {f : α → PoolM β} {Q : β → VarPool → Prop} {xs : List α}
    (hf : ∀ a ∈ xs, ∀ pool : VarPool, pool.Keeps old → Draws (f a) pool Q)
    (hmono : ∀ b (pool pool' : VarPool), pool.Keeps old → pool.Extended pool' → Q b pool →
      Q b pool')
    (hpool : pool.Keeps old) : Draws (xs.mapM f) pool fun ys pool' => ∀ y ∈ ys, Q y pool' := by
  induction xs generalizing pool with
  | nil => exact pure fun y hy => (List.not_mem_nil hy).elim
  | cons a xs ih =>
      rw [List.forall_mem_cons] at hf
      rw [List.mapM_cons]
      refine (hf.1 pool hpool).bind fun y pool₁ h₁ hy => ?_
      refine (ih hf.2 (hpool.extended h₁)).bind fun ys pool₂ h₂ hys => pure ?_
      exact List.forall_mem_cons.2 ⟨hmono y pool₁ pool₂ (hpool.extended h₁) h₂ hy, hys⟩

end Draws

namespace Layout

variable {pool pool' : VarPool} {old : String → Prop}

theorem over_of_extended {t : Ty} (hpool : pool.Keeps old) (h : pool.Extended pool')
    (ht : t.Over (pool.Own old)) : t.Over (pool'.Own old) :=
  ht.mono fun _ => hpool.own h

theorem draws_fresh (hpool : pool.Keeps old) :
    Draws fresh pool fun t pool' => t.Over (pool'.Own old) :=
  ⟨.allocate pool, .var hpool.own_allocate⟩

theorem draws_instantiate (hpool : pool.Keeps old) {scheme : Scheme} (h : scheme.Closed) :
    Draws (instantiate scheme) pool fun t pool' => t.Over (pool'.Own old) :=
  ⟨Scheme.freshNames_extended scheme.vars pool,
    (Scheme.instantiate_over h hpool.distinct).mono fun _ hv => hpool.own_of_fresh hv.1 hv.2⟩

/-- Types that are drawn one after the other. -/
theorem draws_types {α : Type} {f : α → PoolM Ty} {xs : List α} (hpool : pool.Keeps old)
    (hf : ∀ a ∈ xs, ∀ pool : VarPool, pool.Keeps old →
      Draws (f a) pool fun t pool' => t.Over (pool'.Own old)) :
    Draws (xs.mapM f) pool fun ts pool' => ∀ t ∈ ts, t.Over (pool'.Own old) :=
  .mapM hf (fun _ _ _ hpool h => over_of_extended hpool h) hpool

theorem draws_freshParams (hpool : pool.Keeps old) (names : List String) :
    Draws (freshParams names) pool fun entries pool' =>
      ∀ entry ∈ entries, entry.2.Over (pool'.Own old) :=
  .mapM (fun _ _ _ hpool => (draws_fresh hpool).bind fun _ _ _ ht => .pure ht)
    (fun _ _ _ hpool h => over_of_extended hpool h) hpool

theorem over_arguments {scope : String → Prop} {types : List Ty}
    (h : ∀ t ∈ types, t.Over scope) : ∀ input ∈ arguments types, input.2.Over scope := by
  simp only [arguments, List.mem_map, forall_exists_index, and_imp]
  rintro _ ⟨t, i⟩ hmem rfl
  exact h t (List.fst_mem_of_mem_zipIdx hmem)

/-- A layout whose parameters are in a list. -/
theorem every_ofList {P : Ty → Prop} {output : Option Ty} {inputs params : List (String × Ty)}
    (hout : ∀ t ∈ output, P t) (hin : ∀ input ∈ inputs, P input.2)
    (hparams : ∀ param ∈ params, P param.2) : Layout.Every P ⟨output, inputs, .ofList params⟩ :=
  ⟨hout, hin, fun _ _ h => hparams _ (mem_of_getElem?_ofList h)⟩

/-- A layout without parameters. -/
theorem every_of_sockets {P : Ty → Prop} {output : Option Ty} {inputs : List (String × Ty)}
    (hout : ∀ t ∈ output, P t) (hin : ∀ input ∈ inputs, P input.2) :
    Layout.Every P ⟨output, inputs, ∅⟩ :=
  ⟨hout, hin, fun _ _ h => by simp at h⟩

theorem draws_ofTy (hpool : pool.Keeps old) {t : Ty} (ht : t.Over (pool.Own old)) (arity : Nat) :
    Draws (ofTy t arity) pool fun layout pool' => layout.Every (·.Over (pool'.Own old)) := by
  obtain ⟨hargs, hresult⟩ := ht.uncurry arity
  rw [ofTy]
  generalize t.uncurry arity = parts at hargs hresult
  obtain ⟨args, result⟩ := parts
  dsimp only at hargs hresult ⊢
  split
  · have hdraws : ∀ x ∈ List.replicate (arity - args.length) fresh, ∀ pool : VarPool,
        pool.Keeps old → Draws (id x) pool fun t pool' => t.Over (pool'.Own old) :=
      fun x hx pool hpool => (List.eq_of_mem_replicate hx) ▸ draws_fresh hpool
    have hmore := draws_types hpool hdraws
    refine hmore.bind fun more pool₁ h₁ hmore => ?_
    refine (draws_fresh (hpool.extended h₁)).bind fun u pool₂ h₂ hu => .pure ?_
    refine every_of_sockets (by simpa using hu) (over_arguments fun t ht => ?_)
    rcases List.mem_append.1 ht with ht | ht
    · exact over_of_extended hpool (h₁.trans h₂) (hargs t ht)
    · exact over_of_extended (hpool.extended h₁) h₂ (hmore t ht)
  · exact .pure (every_of_sockets (by simpa using hresult) (over_arguments hargs))

theorem draws_operator (hpool : pool.Keeps old) {scheme? : Option Scheme}
    (h : ∀ scheme ∈ scheme?, scheme.Closed) (arity : Nat) :
    Draws (operator scheme? arity) pool
      fun layout pool' => layout.Every (·.Over (pool'.Own old)) := by
  have hrest : ∀ t pool', pool.Extended pool' → t.Over (pool'.Own old) →
      Draws (ofTy t arity) pool' fun layout pool'' => layout.Every (·.Over (pool''.Own old)) :=
    fun t pool' hext ht => draws_ofTy (hpool.extended hext) ht arity
  cases scheme? with
  | none => exact (draws_fresh hpool).bind hrest
  | some scheme => exact (draws_instantiate hpool (h scheme rfl)).bind hrest

theorem draws_use (hpool : pool.Keeps old) :
    Draws use pool fun layout pool' => layout.Every (·.Over (pool'.Own old)) :=
  (draws_fresh hpool).bind fun _ _ _ ht => .pure (every_of_sockets (by simpa using ht) (by simp))

theorem draws_list (hpool : pool.Keeps old) (items : Nat) :
    Draws (list items) pool fun layout pool' => layout.Every (·.Over (pool'.Own old)) :=
  (draws_fresh hpool).bind fun _ _ _ ht =>
    .pure (every_ofList (by simpa using ht.list) (by simpa using fun _ _ => ht) (by simpa using ht))

/-- Two types, the first of which stays as it is while the second one is made up. -/
theorem draws_two {x : PoolM Ty} (hpool : pool.Keeps old)
    (hx : Draws x pool fun t pool' => t.Over (pool'.Own old)) {layout : Ty → Ty → Layout}
    (h : ∀ {P : String → Prop} {t u : Ty}, t.Over P → u.Over P → (layout t u).Every (·.Over P)) :
    Draws (do let t ← x; let u ← fresh; return layout t u) pool
      fun layout pool' => layout.Every (·.Over (pool'.Own old)) :=
  hx.bind fun _ _ h₁ ht => (draws_fresh (hpool.extended h₁)).bind fun _ _ h₂ hu =>
    .pure (h (over_of_extended (hpool.extended h₁) h₂ ht) hu)

theorem draws_lambda (hpool : pool.Keeps old) :
    Draws lambda pool fun layout pool' => layout.Every (·.Over (pool'.Own old)) :=
  draws_two hpool (draws_fresh hpool) fun ht hu =>
    every_ofList (by simpa using Ty.Over.fn_iff.2 ⟨ht, hu⟩) (by simpa using hu) (by simpa using ht)

theorem draws_apply (hpool : pool.Keeps old) :
    Draws apply pool fun layout pool' => layout.Every (·.Over (pool'.Own old)) :=
  draws_two hpool (draws_fresh hpool) fun ht hu =>
    every_of_sockets (by simpa using hu) (by simpa using ⟨Ty.Over.fn_iff.2 ⟨ht, hu⟩, ht⟩)

theorem draws_localLet (hpool : pool.Keeps old) :
    Draws localLet pool fun layout pool' => layout.Every (·.Over (pool'.Own old)) :=
  draws_two hpool (draws_fresh hpool) fun ht hu =>
    every_ofList (by simpa using hu) (by simpa using ⟨ht, hu⟩) (by simpa using ht)

theorem draws_cases (hpool : pool.Keeps old) (decl? : Option DataDecl) (arms : List Arm) :
    Draws (cases decl? arms) pool fun layout pool' => layout.Every (·.Over (pool'.Own old)) := by
  have hrest : ∀ x : PoolM Ty, Draws x pool (fun t pool' => t.Over (pool'.Own old)) →
      Draws (do let t ← x; let u ← fresh; return (⟨some u,
        (Slot.scrutinee, t) :: arms.map fun arm => (Slot.arm arm.constructor, u), ∅⟩ : Layout)) pool
        fun layout pool' => layout.Every (·.Over (pool'.Own old)) := fun x hx =>
    draws_two hpool hx fun ht hu =>
      every_of_sockets (by simpa using hu) (by simp_all)
  cases decl? with
  | none => exact hrest fresh (draws_fresh hpool)
  | some decl =>
      exact hrest (instantiate (.closed decl.self))
        (draws_instantiate hpool (Scheme.closed_closed _))

theorem draws_comprehension (hpool : pool.Keeps old) (vars : List String) (guards : Nat) :
    Draws (comprehension vars guards) pool
      fun layout pool' => layout.Every (·.Over (pool'.Own old)) := by
  refine (draws_freshParams hpool vars).bind fun entries pool₁ h₁ hentries => ?_
  refine (draws_fresh (hpool.extended h₁)).bind fun t pool₂ h₂ ht => .pure ?_
  have hentries : ∀ entry ∈ entries, entry.2.Over (pool₂.Own old) := fun entry hentry =>
    over_of_extended (hpool.extended h₁) h₂ (hentries entry hentry)
  refine every_ofList (by simpa using ht.list) (fun input hinput => ?_) hentries
  simp only [List.mem_append, List.mem_map, List.mem_singleton, or_assoc] at hinput
  rcases hinput with ⟨entry, hentry, rfl⟩ | ⟨i, -, rfl⟩ | rfl
  · exact (hentries entry hentry).list
  · exact Ty.Over.bool
  · exact ht

theorem draws_function (hpool : pool.Keeps old) (params : List String) :
    Draws (function params) pool fun layout pool' => layout.Every (·.Over (pool'.Own old)) := by
  refine (draws_freshParams hpool params).bind fun entries pool₁ h₁ hentries => ?_
  refine (draws_fresh (hpool.extended h₁)).bind fun t pool₂ h₂ ht => .pure ?_
  exact every_ofList (by simp) (by simpa using ht) fun entry hentry =>
    over_of_extended (hpool.extended h₁) h₂ (hentries entry hentry)

theorem draws_statement (hpool : pool.Keeps old) (slots : List Ty) :
    Draws (statement slots) pool fun layout pool' => layout.Every (·.Over (pool'.Own old)) :=
  (draws_types hpool fun _ _ _ hpool => draws_instantiate hpool (Scheme.closed_closed _)).bind
    fun _ _ _ hts => .pure (every_of_sockets (by simp) (over_arguments hts))

end Layout

namespace WorkspaceM

open Layout

variable {old : String → Prop}

theorem ends_onPool_of_draws {ws : Workspace} {x : PoolM Layout}
    (hx : Draws x ws.pool fun layout pool' => layout.Every (·.Over (pool'.Own old))) :
    Ends (onPool x) ws (fun layout ws' => ∃ pool, ws' = { ws with pool } ∧ ws.pool.Extended pool ∧
      layout.Every (·.Over (pool.Own old))) (· = ws) :=
  ⟨(x.run ws.pool).2, rfl, hx⟩

/-- A layout costs allocations only, and has no other variables. -/
theorem every_layoutFor {ws : Workspace} (hmain : ws.main.Ground) (hpool : ws.pool.Keeps old)
    {kind : BlockKind} (hkind : kind.Ground) :
    Ends (layoutFor kind) ws (fun layout ws' => ∃ pool, ws' = { ws with pool } ∧
      ws.pool.Extended pool ∧ layout.Every (·.Over (pool.Own old))) (· = ws) := by
  cases kind with
  | literal value ty =>
      have hground : ty.vars = [] := hkind
      refine ⟨ws.pool, rfl, .refl _, every_of_sockets ?_ (by simp)⟩
      simp [Ty.Over, hground]
  | operator name arity =>
      rw [layoutFor, ends_bind, ends_query]
      cases hcallee : ws.calleeScheme? name with
      | error e => rfl
      | ok scheme? =>
          refine ends_onPool_of_draws (draws_operator hpool (fun scheme hscheme => ?_) arity)
          rw [Option.mem_def.1 hscheme] at hcallee
          exact Workspace.closed_of_calleeScheme? hmain hcallee
  | «variable» name => exact ends_onPool_of_draws (draws_use hpool)
  | lambda param => exact ends_onPool_of_draws (draws_lambda hpool)
  | apply => exact ends_onPool_of_draws (draws_apply hpool)
  | localLet name => exact ends_onPool_of_draws (draws_localLet hpool)
  | list items => exact ends_onPool_of_draws (draws_list hpool items)
  | comprehension vars guards =>
      exact ends_onPool_of_draws (draws_comprehension hpool vars guards)
  | cases typeName arms => exact ends_onPool_of_draws (draws_cases hpool _ arms)
  | function name params => exact ends_onPool_of_draws (draws_function hpool params)
  | data decl => exact ⟨ws.pool, rfl, .refl _, every_of_sockets (by simp) (by simp)⟩
  | statement name =>
      rw [layoutFor]
      cases Prelude.statements[name]? with
      | some slots => exact ends_onPool_of_draws (draws_statement hpool slots)
      | none => rfl

end WorkspaceM

end Plugboard
