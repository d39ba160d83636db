import Plugboard.Proofs.Typing

/-!
# Completeness and principality of inference

Whatever the rules derive for a term, in an environment to which some map leads, inference
finds in a more general form: the map and the derived type factor through the answer. The
factoring map is carried along the run. It says what every variable in use stands for in the
derivation, and each step extends it to the variables that the step allocates, which no one
has used before.
-/

namespace Plugboard

namespace Term

variable {env : Env} {pool pool' : VarPool} {s : Subst} {t : Ty}

/-- `q` takes the answer of a run to a derived type, and takes what the substitution makes of
the variables in use to where `r` takes them. -/
structure Factors (pool : VarPool) (s : Subst) (t : Ty) (r q : String → Ty) (u : Ty) : Prop where
  type : t.bind q = u
  subst : ∀ v, pool.isUsed v → (s.image v).bind q = r v

namespace Factors

variable {r q q' : String → Ty} {u : Ty}

/-- The environment after a run has the map that factors in place of the outer one. -/
theorem relates_apply (h : Factors pool s t r q u) (hrun : Confined env pool s t pool')
    (hguard : env.Guarded pool) {env' : Env} (hrel : env.Relates (Scheme.AtMost r) env') :
    (env.apply s).Relates (Scheme.AtMost q) env' := by
  refine hrel.apply fun name scheme scheme' hlookup hat => ?_
  refine .applyScheme (hguard.avoids hrun.subst hlookup) (hat.congr fun v hv => ?_)
  exact (h.subst v (hguard.used v ⟨name, scheme, hlookup, hv⟩)).symm

/-- A later run whose map factors as well. -/
theorem subst_compose (h : Factors pool s t r q u) (hrun : Confined env pool s t pool')
    (hguard : env.Guarded pool) {second : Subst}
    (hsecond : ∀ v, pool'.isUsed v → (second.image v).bind q' = q v) {v : String}
    (hv : pool.isUsed v) : ((second.compose s).image v).bind q' = r v := by
  calc ((second.compose s).image v).bind q'
    _ = (s.image v).bind (second.andThen q') := by rw [Subst.image_compose, Subst.bind_andThen]
    _ = (s.image v).bind q :=
        Ty.bind_congr fun w hw => hsecond w (hrun.image_used hguard hv hw)
    _ = r v := h.subst v hv

end Factors

end Term

theorem HasType.exists_infers {env' : Env} {e : Term} {u : Ty} (h : HasType env' e u)
    {env : Env} {pool : VarPool} {r : String → Ty} (hpool : pool.Distinct)
    (hguard : env.Guarded pool) (hlits : e.LitsGround)
    (hrel : env.Relates (Scheme.AtMost r) env') :
    ∃ s t pool', e.Infers env pool s t pool' ∧ ∃ q, Term.Factors pool s t r q u := by
  -- on the derivation: the run is built along it, together with the map that factors
  induction h generalizing env pool r with
  | @var env' name scheme' u tag hlookup' hinst =>
      obtain ⟨scheme, hlookup, hat⟩ := hrel.right hlookup'
      obtain ⟨f, hf, rfl⟩ := hat.instances u hinst
      have hrenews := scheme.renewal_renews hpool
      obtain ⟨q, hold, hnew⟩ := hrenews.exists_extension r f
      refine ⟨_, _, _, .var tag hlookup, q, ?_, fun v hv => ?_⟩
      · rw [Scheme.instantiate_fst, Ty.bind_bind]
        refine Ty.bind_congr fun v hv => ?_
        by_cases hq : v ∈ scheme.vars
        · exact hnew v hq
        · rw [hrenews.away v hq, hf v ⟨hv, hq⟩]
          exact hold v (hguard.used v ⟨name, scheme, hlookup, hv, hq⟩)
      · rw [Subst.image_empty]
        exact hold v hv
  | @lit env' t tag =>
      exact ⟨_, _, _, .lit t tag, r, Ty.bind_of_ground hlits r, fun v _ => by
        rw [Subst.image_empty, Ty.bind]⟩
  | @lam env' param body a u tag hbody ih =>
      have hissues := VarPool.allocate_issues hpool
      obtain ⟨r', hr', hold⟩ := hissues.exists_extension r a
      have hparam := Scheme.atMost_mono r' (.var pool.allocate.1)
      rw [Ty.bind, hr'] at hparam
      have hrel' : env.Relates (Scheme.AtMost r') env' :=
        hrel.imp fun name scheme scheme' hlookup hat => hat.congr fun v hv =>
          (hold v (hguard.used v ⟨name, scheme, hlookup, hv⟩)).symm
      obtain ⟨s, t, pool', hinfers, q, htype, hsubst⟩ := ih hissues.distinct
        (hguard.insert_mono hissues param) hlits (hrel'.insert param hparam)
      refine ⟨s, _, pool', .lam tag hinfers, q, ?_, fun v hv => ?_⟩
      · rw [Ty.bind, htype, hsubst _ hissues.used, hr']
      · rw [hsubst v (hissues.keeps hv), hold v hv]
  | @app env' func arg a u tag hfunc harg ihf iha =>
      obtain ⟨s₁, t₁, pool₁, hinfers₁, q₁, hfactors₁⟩ := ihf hpool hguard hlits.1 hrel
      have hrun₁ := hinfers₁.confined hpool hguard hlits.1
      have hguard₁ := hrun₁.guarded_apply hguard
      obtain ⟨s₂, t₂, pool₂, hinfers₂, q₂, hfactors₂⟩ := iha hrun₁.distinct hguard₁ hlits.2
        (hfactors₁.relates_apply hrun₁ hguard hrel)
      have hrun₂ := hinfers₂.confined hrun₁.distinct hguard₁ hlits.2
      have hissues := VarPool.allocate_issues hrun₂.distinct
      -- the variable of the result stands for the derived type
      obtain ⟨q, hresult, hold⟩ := hissues.exists_extension q₂ u
      have harg' : t₂.bind q = a := by
        rw [← hfactors₂.type]
        exact Ty.bind_congr fun v hv => hold v (hrun₂.type_used hguard₁ v hv)
      have hsubst₂ : ∀ v, pool₁.isUsed v → (s₂.image v).bind q = q₁ v := by
        intro v hv
        rw [← hfactors₂.subst v hv]
        exact Ty.bind_congr fun w hw => hold w (hrun₂.image_used hguard₁ hv hw)
      have hfunc' : (s₂.apply t₁).bind q = .fn a u := by
        rw [← hfactors₁.type, ← Subst.bind_andThen]
        exact Ty.bind_congr fun v hv => hsubst₂ v (hrun₁.type_used hguard v hv)
      have hsolves : (s₂.apply t₁).bind q = (Ty.fn t₂ (.var pool₂.allocate.1)).bind q := by
        rw [hfunc', Ty.bind, Ty.bind, harg', hresult]
      obtain ⟨s₃, hunify⟩ := exists_unify_of_bind_eq hsolves
      have hsubst₃ : ∀ x : Ty, (s₃.apply x).bind q = x.bind q :=
        bind_apply_of_unify hunify hsolves
      refine ⟨_, _, _, .app tag hinfers₁ hinfers₂ hunify, q, ?_, fun v hv => ?_⟩
      · exact (hsubst₃ (.var pool₂.allocate.1)).trans hresult
      · rw [Subst.image_compose, hsubst₃]
        exact hfactors₁.subst_compose hrun₁ hguard hsubst₂ hv
  | @letIn env' name bound body u₁ u scheme' tag hbound hscheme hbody ihb ihe =>
      obtain ⟨s₁, t₁, pool₁, hinfers₁, q₁, hfactors₁⟩ := ihb hpool hguard hlits.1 hrel
      have hrun₁ := hinfers₁.confined hpool hguard hlits.1
      have hrel₁ := hfactors₁.relates_apply hrun₁ hguard hrel
      -- the derivation generalizes an instance of what the run generalizes
      rw [← hfactors₁.type] at hscheme
      have hgeneral := Scheme.generalize_generalizes ((env.apply s₁).erase name) t₁
      have hrel₂ := hrel₁.insert name (hgeneral.atMost hscheme fun v hv w hw =>
        hrel₁.free_atMost (Env.free_erase hv) hw)
      rw [← Env.define_eq] at hrel₂
      obtain ⟨s₂, t₂, pool₂, hinfers₂, q₂, hfactors₂⟩ := ihe hrun₁.distinct
        (hrun₁.guarded_define hguard name) hlits.2 hrel₂
      exact ⟨_, _, _, .letIn tag hinfers₁ hinfers₂, q₂, hfactors₂.type, fun v hv =>
        hfactors₁.subst_compose hrun₁ hguard hfactors₂.subst hv⟩

/-- Finitely many variables are mapped by a substitution just as by any map. -/
theorem Subst.exists_image_eq (q : String → Ty) (vs : List String) :
    ∃ s : Subst, ∀ v ∈ vs, s.image v = q v := by
  refine ⟨.ofList (vs.map fun v => (v, q v)), ?_⟩
  induction vs with
  | nil => simp
  | cons w vs ih =>
      intro v hv
      have hnames : (vs.map fun v => (v, q v)).map Prod.fst = vs := by
        rw [List.map_map]
        exact List.map_id vs
      rw [List.map_cons, Subst.image_ofList_cons, hnames]
      by_cases hmem : v ∈ vs
      · rw [if_pos hmem, ih v hmem]
      · obtain rfl := (List.mem_cons.1 hv).resolve_right hmem
        rw [if_neg hmem, if_pos rfl]

theorem Env.Admissible.avoids {env : Env} {pool : VarPool} (h : env.Admissible pool) (s : Subst)
    {name : String} {scheme : Scheme} (hlookup : env.lookup name = some scheme) :
    s.Avoids scheme := by
  intro v hv w _
  rcases h name scheme hlookup with hclosed | ⟨hmono, -⟩
  · exact (hclosed v hv).elim
  · simp [hmono]

namespace Term

/-- Inference is complete, and its answer is principal. Applying the substitution to the
environment captures nothing, for a closed scheme has nothing to replace and a monomorphic one
quantifies nothing. -/
theorem infer_principal {env : Env} {e : Term} {u : Ty} (r : Subst) (st : InferState)
    (hpool : st.pool.Distinct) (henv : env.Admissible st.pool) (hlits : e.LitsGround)
    (htyped : HasType (env.apply r) e u) :
    ∃ s t st', (e.infer env).run st = (.ok (s, t), st') ∧
      ∃ q : Subst, q.apply t = u ∧
        ∀ v, env.Free v → q.apply (s.apply (.var v)) = r.apply (.var v) := by
  have hguard := henv.guarded
  have hrel : env.Relates (Scheme.AtMost r.image) (env.apply r) :=
    .apply_right fun _ _ hlookup => Scheme.atMost_applyScheme (henv.avoids r hlookup)
  obtain ⟨s, t, pool', hinfers, q, hfactors⟩ := htyped.exists_infers hpool hguard hlits hrel
  obtain ⟨notes, hrun⟩ := hinfers.exists_run st.notes
  obtain ⟨q', hq'⟩ := Subst.exists_image_eq q
    (t.vars ++ env.freeVars.toList.flatMap fun v => (s.image v).vars)
  refine ⟨s, t, _, hrun, q', ?_, fun v hv => ?_⟩
  · rw [← hfactors.type]
    exact Ty.bind_congr fun w hw => hq' w (List.mem_append_left _ hw)
  · refine Eq.trans ?_ (hfactors.subst v (hguard.used v hv))
    have hmem := Std.ExtTreeSet.mem_toList.2 (Env.mem_freeVars.2 hv)
    exact Ty.bind_congr fun w hw =>
      hq' w (List.mem_append_right _ (List.mem_flatMap.2 ⟨v, hmem, hw⟩))

/-- The type `Number` of `let y = (\x -> x) y in y`, where the definition hides a variable of
monomorphic type. -/
theorem infer_principal_let_hiding :
    ∃ s t st', (infer (Env.empty.insert "y" (.mono (.var "A")))
        (.letIn "y" (.app (.lam "x" (.var "x" none) none) (.var "y" none) none)
          (.var "y" none) none)).run ⟨VarPool.default.reserve "A", []⟩ = (.ok (s, t), st') ∧
      ∃ q : Subst, q.apply t = .con "Number" [] ∧
        ∀ v, (Env.empty.insert "y" (.mono (.var "A"))).Free v →
          q.apply (s.apply (.var v)) = (Subst.single "A" (.con "Number" [])).apply (.var v) := by
  let pool := VarPool.default.reserve "A"
  have hpool : pool.Distinct := (VarPool.distinct_withColour _).reserve "A"
  have henv : (Env.empty.insert "y" (.mono (.var "A"))).Admissible pool :=
    (Env.admissible_empty pool).insert_mono "y" (by decide)
  refine infer_principal (.single "A" (.con "Number" [])) ⟨pool, []⟩ hpool henv ?_ ?_
  · simp [LitsGround]
  · have hlookup : ((Env.empty.insert "y" (.mono (.var "A"))).apply
        (.single "A" (.con "Number" []))).lookup "y" = some (.mono (.con "Number" [])) := by
      rw [Env.lookup_apply, Env.lookup_insert, if_pos rfl, Option.map_some,
        Subst.applyScheme_mono]
      simp [Subst.apply, Ty.bind]
    have hfunc : HasType ((Env.empty.insert "y" (.mono (.var "A"))).apply
        (.single "A" (.con "Number" []))) (.lam "x" (.var "x" none) none)
        (.fn (.con "Number" []) (.con "Number" [])) :=
      .lam none (.var none (Env.lookup_insert_self ..) (Scheme.instance_body _))
    have harg := HasType.var none hlookup (Scheme.instance_body _)
    exact .letIn none (.app none hfunc harg) (Scheme.generalize_generalizes _ _)
      (.var none (Env.lookup_insert_self ..) (Scheme.instance_body _))

end Term

end Plugboard
