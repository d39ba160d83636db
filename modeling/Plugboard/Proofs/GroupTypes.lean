import Plugboard.Proofs.FoundTypes
import Plugboard.Proofs.Soundness

/-!
# The types of functions that are inferred together

The bodies of a group are inferred in turn, each with what is known from those before. By the rules
a body that causes no error has the type of its function when all are done, also where the members
of the group are bound to general schemes.
-/

namespace Plugboard

open InferM Subst

/-- What the first environment binds the second binds to the same, and what is new is closed. -/
structure Env.Widens (env env' : Env) : Prop where
  keeps : ∀ {name scheme}, env.lookup name = some scheme → env'.lookup name = some scheme
  adds : ∀ {name scheme}, env'.lookup name = some scheme →
    env.lookup name = some scheme ∨ scheme.Closed

namespace Env.Widens

variable {env env' : Env}

theorem free_iff (h : env.Widens env') {v : String} : env'.Free v ↔ env.Free v := by
  constructor
  · rintro ⟨name, scheme, hlookup, hfree⟩
    exact ⟨name, scheme, (h.adds hlookup).resolve_right fun hclosed => hclosed v hfree, hfree⟩
  · exact fun ⟨name, scheme, hlookup, hfree⟩ => ⟨name, scheme, h.keeps hlookup, hfree⟩

theorem insert (h : env.Widens env') (name : String) (scheme : Scheme) :
    (env.insert name scheme).Widens (env'.insert name scheme) where
  keeps {name' scheme'} hlookup := by
    rw [lookup_insert] at hlookup ⊢
    split at hlookup
    · rename_i hname
      rwa [if_pos hname]
    · rename_i hname
      rw [if_neg hname]
      exact h.keeps hlookup
  adds {name' scheme'} hlookup := by
    rw [lookup_insert] at hlookup ⊢
    split at hlookup
    · rename_i hname
      rw [if_pos hname]
      exact .inl hlookup
    · rename_i hname
      rw [if_neg hname]
      exact h.adds hlookup

end Env.Widens

namespace HasType

variable {env env' : Env} {e : Term} {t : Ty}

/-- Closed bindings of new names make no difference to what is typed without them. -/
theorem widen (h : HasType env e t) (henv : env.Widens env') : HasType env' e t := by
  induction h generalizing env' with
  | var tag hlookup hinst => exact .var tag (henv.keeps hlookup) hinst
  | lit t tag => exact .lit t tag
  | lam tag _ hbody => exact .lam tag (hbody (henv.insert _ _))
  | app tag _ _ hfunc harg => exact .app tag (hfunc henv) (harg henv)
  | letIn tag _ hscheme _ hbound hbody =>
      refine .letIn tag (hbound henv) ⟨hscheme.1, fun v => ?_⟩ (hbody (henv.insert _ _))
      rw [hscheme.2, henv.free_iff]

/-- A term that is typed with parameters bound to types is a function of them. -/
theorem lamAll {params : List String} {types : List Ty} (hlength : types.length = params.length)
    (h : HasType (env.insertMany (params.zip (types.map .mono))) e t) :
    HasType env (Term.lamAll params e) (.curried types t) := by
  induction params generalizing env types with
  | nil =>
      obtain rfl := List.length_eq_zero_iff.1 hlength
      exact h
  | cons param params ih =>
      cases types with
      | nil => cases hlength
      | cons a types => exact .lam none (ih (Nat.succ.inj hlength) h)

end HasType

/-- In a larger scope local definitions still take new names, if the names that are added to it are
bound by nothing in the term. -/
theorem Term.NewLets.widen {scope large bound : String → Prop} {e : Term} (h : e.NewLets scope)
    (hbinders : e.BindersIn bound) (hlarge : ∀ name, large name → scope name ∨ ¬ bound name) :
    e.NewLets large := by
  have hunder : ∀ {scope large : String → Prop} (binder : String),
      (∀ name, large name → scope name ∨ ¬ bound name) → ∀ name, name = binder ∨ large name →
        (name = binder ∨ scope name) ∨ ¬ bound name := fun binder hlarge name hname =>
    hname.elim (fun heq => .inl (.inl heq)) fun hname => (hlarge name hname).imp_left .inr
  induction e generalizing scope large with
  | var => trivial
  | lit => trivial
  | app func arg tag hfunc harg =>
      exact ⟨hfunc h.1 hbinders.1 hlarge, harg h.2 hbinders.2 hlarge⟩
  | lam param body tag hbody => exact hbody h hbinders.2 (hunder param hlarge)
  | letIn name value body tag hvalue hbody =>
      obtain ⟨hnew, hletsv, hletsb⟩ := h
      refine ⟨fun hname => ?_, hvalue hletsv hbinders.2.1 hlarge,
        hbody hletsb hbinders.2.2 (hunder name hlarge)⟩
      exact (hlarge name hname).elim hnew fun hfree => hfree hbinders.1

theorem Env.NamesIn.insertMany {env : Env} {scope : String → Prop} (h : env.NamesIn scope)
    {bindings : List (String × Scheme)} (hnames : ∀ name ∈ bindings.map (·.1), scope name) :
    (env.insertMany bindings).NamesIn scope := by
  intro name scheme hlookup
  by_cases hmem : name ∈ bindings.map (·.1)
  · exact hnames name hmem
  · rw [lookup_insertMany_of_not_mem hmem] at hlookup
    exact h name scheme hlookup

theorem Scheme.Closed.atLeast {scheme : Scheme} (h : scheme.Closed) (r : String → Ty) :
    AtLeast r scheme scheme := fun _ ht => ht.congr fun v hv => (h v hv).elim

namespace Lowered

variable {env : Env} {l : Lowered} {st st' : InferState} {σ : Subst} {t : Ty}

/-- With types for its holes, the term has the type in every environment that is at least as general
as a given one under a substitution. -/
def HasTypeUnder (env : Env) (σ : Subst) (l : Lowered) (t : Ty) : Prop :=
  ∃ holes : List Ty, holes.length = l.holes.length ∧
    ∀ env', env.Relates (Scheme.AtLeast σ.image) env' →
      HasType (env'.insertMany ((l.holes.map holeName).zip (holes.map .mono))) l.term t

theorem HasTypeUnder.exists_section (h : l.HasTypeUnder env σ t) {env' : Env}
    (henv : env.Relates (Scheme.AtLeast σ.image) env') : ∃ u, HasType env' l.toSection u := by
  obtain ⟨holes, hlength, htyped⟩ := h
  exact ⟨_, HasType.lamAll (hlength.trans (List.length_map _).symm) (htyped env' henv)⟩

/-- No local definition of the term takes a name of the environment or of a hole. -/
def DefinesNew (env : Env) (l : Lowered) : Prop :=
  ∃ scope : String → Prop, env.NamesIn scope ∧ (∀ s ∈ l.holes, scope (holeName s)) ∧
    l.term.NewLets scope

/-- What is found with an expected type is typed by the rules, however it is refined later. -/
theorem hasTypeUnder_of_inferAs {before r : Subst} {block : BlockId} {expected : Ty}
    (hpool : st.pool.Distinct) (henv : env.Over st.pool.Uses) (hlits : l.term.LitsGround)
    (hlets : l.DefinesNew env) (hbefore : before.Within st.pool.Uses) (hidem : before.Idempotent)
    (hrun : (l.inferAs env block expected before).run st = (.ok r, st')) :
    r.Idempotent ∧ ∀ σ : Subst, σ.Absorbs r →
      σ.Absorbs before ∧ l.HasTypeUnder env σ (σ.apply expected) := by
  obtain ⟨scope, hscope, hholes, hlets⟩ := hlets
  obtain ⟨bindings, s, t, st₁, -, hnames, hbindings, -, hdistinct, hguard, hterm, hr, habsorbs⟩ :=
    exists_run_of_inferAs hpool henv hlits hbefore hidem hrun
  have hplain : (env.insertMany bindings).Over fun _ => True :=
    (henv.mono fun _ _ => trivial).insertMany_mono fun binding hmem =>
      (hbindings binding hmem).imp fun _ hmono => ⟨hmono, fun _ _ => trivial⟩
  have hscope' : ((env.insertMany bindings).apply before).NamesIn scope := by
    refine (hscope.insertMany fun name hname => ?_).apply before
    obtain ⟨hole, hhole, rfl⟩ := List.mem_map.1 (hnames ▸ hname)
    exact hholes hole hhole
  refine ⟨hr, fun σ hσ => ?_⟩
  obtain ⟨hσbefore, hσs, hσt⟩ := habsorbs σ hσ
  refine ⟨hσbefore, bindings.map fun binding => σ.apply binding.2.body, ?_, fun env' henv' => ?_⟩
  · rw [List.length_map, ← List.length_map (·.1), hnames, List.length_map]
  have hafter : before.andThen (s.andThen σ.image) = σ.image := by
    funext v
    calc (before.image v).bind (s.andThen σ.image)
      _ = σ.apply (s.apply (before.image v)) := Subst.bind_andThen s σ.image _
      _ = σ.apply (before.image v) := hσs.apply _
      _ = σ.image v := hσbefore v
  have hholesTyped : List.Forall₂
      (fun binding binding' : String × Scheme => binding.1 = binding'.1 ∧
        Scheme.AtLeast σ.image binding.2 binding'.2) bindings
      ((l.holes.map holeName).zip
        ((bindings.map fun binding => σ.apply binding.2.body).map .mono)) := by
    rw [← hnames, List.map_map, List.zip_map', List.forall₂_map_right_iff, List.forall₂_same]
    intro binding hmem
    obtain ⟨u, hu⟩ := hbindings binding hmem
    refine ⟨rfl, ?_⟩
    rw [Function.comp_apply, hu]
    exact Scheme.atLeast_mono σ.image u
  rw [← hσt]
  refine (Term.infers_of_run hterm).hasType hdistinct hguard hlits hscope' hlets ?_
  refine Env.Relates.apply (henv'.insertMany hholesTyped) fun name scheme scheme' hlookup hat => ?_
  have hscheme : scheme.Plain := (hplain name scheme hlookup).imp_right And.left
  exact .applyScheme (hscheme.avoids before) (hafter.symm ▸ hat)

end Lowered

namespace FunctionGroup

variable {env : Env} {st : InferState} {scope : String → Prop}

/-- Every body that causes no error has the type of its function when all have been inferred. -/
theorem hasTypeUnder_inferBodies {bodies : List (Member × Ty)}
    (hlits : ∀ body ∈ bodies, ∀ l, body.1.lowered = .ok l → l.term.LitsGround)
    (hlets : ∀ body ∈ bodies, ∀ l, body.1.lowered = .ok l → l.DefinesNew env)
    (hpool : st.pool.Distinct) (henv : env.Over st.pool.Uses)
    (hselves : ∀ body ∈ bodies, body.2.Over st.pool.Uses) {before : Subst}
    (hbefore : before.Within st.pool.Uses) (hidem : before.Idempotent) :
    let r := (inferBodies env bodies before).run st
    r.1.1.Idempotent ∧ ∀ σ : Subst, σ.Absorbs r.1.1 → σ.Absorbs before ∧
      ∀ entry ∈ bodies.zip r.1.2, entry.2 = none →
        ∃ l, entry.1.1.lowered = .ok l ∧ l.HasTypeUnder env σ (σ.apply entry.1.2) := by
  induction bodies generalizing st before with
  | nil => exact ⟨hidem, fun σ hσ => ⟨hσ, fun entry hentry => (List.not_mem_nil hentry).elim⟩⟩
  | cons body bodies ih =>
      obtain ⟨m, self⟩ := body
      rw [List.forall_mem_cons] at hlits hlets hselves
      have hkeeps := hpool.keeps
      have hown : ∀ {st : InferState}, st.pool.Own (fun _ => False) = st.pool.Uses :=
        VarPool.own_false
      have hattempt := attempt_of_ends (ends_inferBody hkeeps (hown ▸ henv)
        hlits.1 (hown ▸ hselves.1) (hown ▸ hbefore))
      -- whatever becomes of the first body, the others find the pool extended
      have hrest : ∀ {st' : InferState} {s : Subst}, st.Continues (fun _ => False) st' →
          s.Within st'.pool.Uses → s.Idempotent →
          let r := (inferBodies env bodies s).run st'
          r.1.1.Idempotent ∧ ∀ σ : Subst, σ.Absorbs r.1.1 → σ.Absorbs s ∧
            ∀ entry ∈ bodies.zip r.1.2, entry.2 = none →
              ∃ l, entry.1.1.lowered = .ok l ∧ l.HasTypeUnder env σ (σ.apply entry.1.2) := by
        intro st' s hcont hs hidem
        have hused : ∀ v, st.pool.Uses v → st'.pool.Uses v := fun v => hcont.pool.keeps hpool
        exact ih hlits.2 hlets.2 (hcont.pool.distinct hpool) (henv.mono hused)
          (fun body hmem => (hselves.2 body hmem).mono hused) hs hidem
      rw [inferBodies, StateT.run_bind]
      rcases hrun : (attempt (inferBody env m self before)).run st with ⟨e | s, st₁⟩ <;>
        rw [hrun] at hattempt
      · obtain ⟨hr, htyped⟩ := hrest hattempt
          (hbefore.mono fun v => hattempt.pool.keeps hpool) hidem
        refine ⟨hr, fun σ hσ => ⟨(htyped σ hσ).1, fun entry hentry hnone => ?_⟩⟩
        rcases List.mem_cons.1 hentry with rfl | hentry
        · cases hnone
        · exact (htyped σ hσ).2 entry hentry hnone
      · replace hrun := run_attempt_eq_ok.1 hrun
        rw [inferBody] at hrun
        cases hlowered : m.lowered with
        | error e =>
            rw [hlowered] at hrun
            cases hrun
        | ok l =>
            rw [hlowered] at hrun
            obtain ⟨hs, hfirst⟩ := Lowered.hasTypeUnder_of_inferAs hpool henv
              (hlits.1 l hlowered) (hlets.1 l hlowered) hbefore hidem hrun
            obtain ⟨hr, htyped⟩ := hrest hattempt.2 (hown ▸ hattempt.1) hs
            refine ⟨hr, fun σ hσ => ?_⟩
            obtain ⟨hσs, hothers⟩ := htyped σ hσ
            obtain ⟨hσbefore, hfirst⟩ := hfirst σ hσs
            refine ⟨hσbefore, fun entry hentry hnone => ?_⟩
            rcases List.mem_cons.1 hentry with rfl | hentry
            · exact ⟨l, hlowered, hfirst⟩
            · exact hothers entry hentry hnone

/-- A member is bound to a scheme that its type is an instance of, also if it causes an error. -/
theorem forall₂_bindings (s : Subst) (found : List (Ty × Option TypeError)) :
    List.Forall₂ (fun entry scheme => Scheme.Instance scheme (s.apply entry.1)) found
      ((found.mapM fun (self, error) => bindingOf env s self error).run st).1 := by
  induction found generalizing st with
  | nil => exact .nil
  | cons entry found ih =>
      obtain ⟨self, error⟩ := entry
      rw [List.mapM_cons, StateT.run_bind]
      cases error with
      | none => exact .cons (Scheme.instance_body ((env.apply s).generalize (s.apply self))) ih
      | some e =>
          refine .cons ⟨fun _ => s.apply self, fun v hfree => ?_, rfl⟩
            (@ih { st with pool := st.pool.allocate.2 })
          exact (Scheme.closed_closed _ v hfree).elim

/-- An environment with types is no more general than one with schemes that have them as
instances. -/
theorem relates_insertMany (henv : env.Closed) {names : List String} {selves : List Ty}
    {schemes : List Scheme} {s : Subst}
    (h : List.Forall₂ (fun self scheme => Scheme.Instance scheme (s.apply self)) selves schemes) :
    (env.insertMany (names.zip (selves.map .mono))).Relates (Scheme.AtLeast s.image)
      (env.insertMany (names.zip schemes)) := by
  refine Env.Relates.insertMany (fun name => ?_) ?_
  · cases hlookup : env.lookup name with
    | none => exact .none
    | some scheme => exact .some ((henv name scheme hlookup).atLeast s.image)
  · induction h generalizing names with
    | nil =>
        rw [List.map_nil, List.zip_nil_right]
        exact .nil
    | cons hinst _ ih =>
        cases names with
        | nil => exact .nil
        | cons name names =>
            refine .cons ⟨rfl, fun t ht => ?_⟩ ih
            obtain rfl := Scheme.instanceUnder_mono.1 ht
            exact hinst

/-- What is found out about a group before its members are bound: the variables that stand for their
types, what is known of these, and what is wrong with each member. -/
structure Solution where
  selves : List Ty
  subst : Subst
  errors : List (Option TypeError)

/-- Infers a group up to where its members are bound. -/
def solve (env : Env) (members : List Member) : StateM InferState Solution := do
  let selves ← members.mapM fun _ => freshVar
  let inner := bindAll env members (selves.map .mono)
  let (subst, errors) ← inferBodies inner (members.zip selves) .empty
  return { selves, subst, errors }

theorem run_solve {members : List Member} {selves : List Ty} {s : Subst}
    {errors : List (Option TypeError)} {mid st' : InferState}
    (hselves : (members.mapM fun _ => freshVar).run st = (selves, mid))
    (hbodies : (inferBodies (bindAll env members (selves.map .mono)) (members.zip selves)
      .empty).run mid = ((s, errors), st')) :
    (solve env members).run st = ({ selves, subst := s, errors }, st') := by
  rw [solve, StateT.run_bind, hselves]
  change (_ >>= _ : StateM InferState Solution).run mid = _
  rw [StateT.run_bind, hbodies]
  rfl

/-- A solution has a variable and an outcome for every member. -/
theorem length_solve (env : Env) (members : List Member) (st : InferState) :
    let found := ((solve env members).run st).1
    found.selves.length = members.length ∧ found.errors.length = members.length := by
  have hselves := length_freshVars members st
  rcases hfresh : (members.mapM fun _ => freshVar).run st with ⟨selves, mid⟩
  rw [hfresh] at hselves
  have herrors := length_inferBodies (bindAll env members (selves.map .mono)) (members.zip selves)
    .empty mid
  rw [List.length_zip, hselves, min_self] at herrors
  rw [run_solve hfresh rfl]
  exact ⟨hselves, herrors⟩

/-- A group is solved, and then its members are bound. -/
theorem run_infer_eq_solve (env : Env) (members : List Member) (st : InferState) :
    (infer env members).run st =
      let (found, st') := (solve env members).run st
      let r := ((found.selves.zip found.errors).mapM fun (self, error) =>
        bindingOf env found.subst self error).run st'
      ({ schemes := (members.map (·.name)).zip r.1
         errors := (members.zip found.errors).filterMap fun (m, error) =>
           error.map fun e => (m.block, e)
         types := resolve found.subst st'.notes }, r.2) := rfl

/-- In a group no local definition takes the name of a member either. -/
theorem definesNew_bindAll {l : Lowered} {members : List Member} (hscope : env.NamesIn scope)
    (hmembers : ∀ m ∈ members, scope m.name) (hholes : ∀ s ∈ l.holes, scope (holeName s))
    (hlets : l.term.NewLets scope) (schemes : List Scheme) :
    l.DefinesNew (bindAll env members schemes) := by
  refine ⟨scope, hscope.insertMany fun name hname => ?_, hholes, hlets⟩
  obtain ⟨binding, hbinding, rfl⟩ := List.mem_map.1 hname
  obtain ⟨m, hm, heq⟩ := List.mem_map.1 (List.of_mem_zip hbinding).1
  exact heq ▸ hmembers m hm

/-- The members that cause no error have the types that are found for them. -/
theorem hasTypeUnder_solve (henv : env.Closed) {members : List Member}
    (hlits : ∀ m ∈ members, ∀ l, m.lowered = .ok l → l.term.LitsGround)
    (hlets : ∀ m ∈ members, ∀ l, m.lowered = .ok l →
      ∀ schemes, l.DefinesNew (bindAll env members schemes))
    {pool : VarPool} (hpool : pool.Distinct) :
    let found := ((solve env members).run (ofPool pool)).1
    ∀ entry ∈ (members.zip found.selves).zip found.errors, entry.2 = none →
      ∃ l, entry.1.1.lowered = .ok l ∧
        l.HasTypeUnder (bindAll env members (found.selves.map .mono)) found.subst
          (found.subst.apply entry.1.2) := by
  obtain ⟨hselves, hcont⟩ := @run_freshVars _ (ofPool pool) _ hpool.keeps members
  rw [solve, StateT.run_bind]
  generalize (members.mapM fun _ => freshVar).run (ofPool pool) = r₁ at hselves hcont ⊢
  obtain ⟨selves, st₁⟩ := r₁
  rw [VarPool.own_false] at hselves
  obtain ⟨hidem, htyped⟩ := hasTypeUnder_inferBodies
    (fun body hmem => hlits body.1 (List.of_mem_zip hmem).1)
    (fun body hmem l hl => hlets body.1 (List.of_mem_zip hmem).1 l hl (selves.map .mono))
    (hcont.pool.distinct hpool) (over_bindAll henv members hselves)
    (fun body hmem => hselves body.2 (List.of_mem_zip hmem).2) .empty idempotent_empty
  exact (htyped _ hidem.absorbs).2

/-- By the rules every member that causes no error has a type as a function of its holes, where all
members are bound to what the group is found to be. -/
theorem exists_hasType_infer (henv : env.Closed) (hscope : env.NamesIn scope)
    (hholes : ∀ s, scope (holeName s)) {members : List Member}
    (hmembers : ∀ m ∈ members, scope m.name ∧ ∀ l, m.lowered = .ok l →
      l.term.LitsGround ∧ l.term.NewLets scope) {pool : VarPool} (hpool : pool.Distinct) :
    let r := (infer env members).run (ofPool pool)
    ∀ m ∈ members, (∀ e, (m.block, e) ∉ r.1.errors) →
      ∃ l u, m.lowered = .ok l ∧ HasType (env.insertMany r.1.schemes) l.toSection u := by
  have hlength := length_solve env members (ofPool pool)
  have htyped := hasTypeUnder_solve henv (fun m hm l hl => ((hmembers m hm).2 l hl).1)
    (fun m hm l hl => definesNew_bindAll hscope (fun m hm => (hmembers m hm).1)
      (fun hole _ => hholes hole) ((hmembers m hm).2 l hl).2) hpool
  rw [run_infer_eq_solve]
  generalize (solve env members).run (ofPool pool) = r₁ at hlength htyped ⊢
  obtain ⟨⟨selves, s, errors⟩, st⟩ := r₁
  obtain ⟨hselves, herrors⟩ := hlength
  dsimp only at hselves herrors htyped ⊢
  intro m hm herror
  have hmembers' : (members.zip selves).map Prod.fst = members := List.map_fst_zip hselves.ge
  have hbodies : ((members.zip selves).zip errors).map Prod.fst = members.zip selves := by
    refine List.map_fst_zip ?_
    rw [List.length_zip, hselves, min_self, herrors]
  rw [← hmembers', ← hbodies, List.map_map] at hm
  obtain ⟨⟨⟨m, self⟩, error⟩, hentry, rfl⟩ := List.mem_map.1 hm
  have hnone : error = none := by
    cases error with
    | none => rfl
    | some e =>
        refine (herror e (List.mem_filterMap.2 ⟨(m, some e), ?_, rfl⟩)).elim
        rw [← hmembers', List.zip_map_left]
        exact List.mem_map.2 ⟨_, hentry, rfl⟩
  obtain ⟨l, hl, htype⟩ := htyped _ hentry hnone
  have hselves' : (selves.zip errors).map Prod.fst = selves :=
    List.map_fst_zip (hselves.trans herrors.symm).le
  have hschemes : List.Forall₂ (fun self scheme => Scheme.Instance scheme (s.apply self)) selves
      (((selves.zip errors).mapM fun (self, error) => bindingOf env s self error).run st).1 := by
    conv_lhs => rw [← hselves']
    exact List.forall₂_map_left_iff.2 (forall₂_bindings s _)
  obtain ⟨u, hu⟩ := htype.exists_section (relates_insertMany henv hschemes)
  exact ⟨l, u, hl, hu⟩

end FunctionGroup

end Plugboard
