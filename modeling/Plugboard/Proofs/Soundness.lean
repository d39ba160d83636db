import Mathlib
import Plugboard.Proofs.Typing

/-!
# Soundness of inference

What a run answers is a type in the sense of the rules, in the environment under the
substitution that it answers. The induction proves more: the typing holds under every further
map, and in every environment that is at least as general as the one the map leads to. Later
steps of a run refine what earlier ones have found, and the quantified names of a local
definition can be renamed on the way.
-/

namespace Plugboard

namespace Term

theorem Infers.hasType {env : Env} {e : Term} {pool pool' : VarPool} {s : Subst} {t : Ty}
    (h : Infers env e pool s t pool') (hpool : pool.Distinct) (hguard : env.Guarded pool)
    (hlits : e.LitsGround) {scope : String → Prop}
    (hscope : env.NamesIn scope) (hlets : e.NewLets scope) {r : String → Ty} {env' : Env}
    (hrel : env.Relates (Scheme.AtLeast (s.andThen r)) env') : HasType env' e (t.bind r) := by
  induction h generalizing scope r env' with
  | @var env name scheme pool tag hlookup =>
      have hrenews := scheme.renewal_renews hpool
      obtain ⟨scheme', hlookup', hleast⟩ := hrel.left hlookup
      -- the fresh variables go where the outer map takes them
      refine .var tag hlookup' (hleast _ ⟨fun v => (scheme.renewal pool v).bind r, ?_, ?_⟩)
      · intro v hv
        change (scheme.renewal pool v).bind r = _
        rw [hrenews.away v hv.2, Subst.andThen, Subst.image_empty]
      · rw [Scheme.instantiate_fst, Ty.bind_bind]
  | lit t tag =>
      rw [Ty.bind_of_ground hlits]
      exact .lit t tag
  | @lam env param body pool pool' s t tag hbody ih =>
      have hissues := VarPool.allocate_issues hpool
      refine .lam tag (ih hissues.distinct (hguard.insert_mono hissues param) hlits
        (hscope.insert param _) hlets ?_)
      exact hrel.insert param (Scheme.atLeast_mono _ (.var pool.allocate.1))
  | @app env func arg pool pool₁ pool₂ s₁ s₂ s₃ t₁ t₂ tag hfunc harg hunify ihf iha =>
      have hrun := hfunc.confined hpool hguard hlits.1
      have havoids : ∀ name scheme, env.lookup name = some scheme → s₁.Avoids scheme :=
        fun _ _ => hguard.avoids hrun.subst
      rw [Subst.andThen_compose, Subst.andThen_compose] at hrel
      have hfunc' := ihf hpool hguard hlits.1 hscope hlets.1 hrel
      -- the function's typing is taken under what the argument and the unifier add to it
      have harg' := iha hrun.distinct (hrun.guarded_apply hguard) hlits.2 (hscope.apply s₁)
        hlets.2
        (hrel.apply fun name scheme scheme' hlookup => .applyScheme (havoids name scheme hlookup))
      rw [Subst.bind_andThen, Subst.bind_andThen, unify_apply_eq hunify] at hfunc'
      rw [Subst.bind_andThen] at harg'
      exact .app tag hfunc' harg'
  | @letIn env name bound body pool pool₁ pool₂ s₁ s₂ t₁ t₂ tag hbound hbody ihb ihe =>
      obtain ⟨hnew, hletsb, hletse⟩ := hlets
      have hrun := hbound.confined hpool hguard hlits.1
      have havoids : ∀ name scheme, env.lookup name = some scheme → s₁.Avoids scheme :=
        fun _ _ => hguard.avoids hrun.subst
      rw [Subst.andThen_compose] at hrel
      -- the name is new, so that nothing is lost from the environment
      have herase := hscope.erase_eq hnew
      have hguard' := hrun.guarded_define hguard name
      rw [Env.define, herase] at hguard' ihe
      -- in `env'` the quantified names may be free, so the definition gets others there
      obtain ⟨r', hagree, hleast⟩ := Scheme.AtLeast.exists_renaming
        (Scheme.generalize_generalizes (env.apply s₁) t₁) env' (s₂.andThen r)
      have hbound' := ihb hpool hguard hlits.1 hscope hletsb (r := r') (hrel.imp ?_)
      · have hscheme := Scheme.generalize_generalizes env' (t₁.bind r')
        refine .letIn tag hbound' hscheme (ihe hrun.distinct hguard' hlits.2
          ((hscope.apply s₁).insert name _) hletse ?_)
        refine Env.Relates.insert (hrel.apply fun name scheme scheme' hlookup => ?_) name
          (hleast _ hscheme)
        exact .applyScheme (havoids name scheme hlookup)
      · -- what is free in the environment is not quantified, and not renamed either
        intro name' scheme scheme' hlookup hat
        refine hat.congr fun v hv => Ty.bind_congr fun w hw => (hagree w fun hq => ?_).symm
        refine (Env.mem_vars_generalize.1 hq).2 ⟨name', _, ?_, Subst.free_applyScheme.2
          ⟨⟨v, hv, hw⟩, havoids name' scheme hlookup v hv w hw⟩⟩
        rw [Env.lookup_apply, hlookup, Option.map_some]

/-- Inference is sound. Local definitions have to take new names, for a definition is
generalized against an environment that lacks its name, and what another binding of that name
has free would be generalized as well. -/
theorem infer_sound {env : Env} {e : Term} {st st' : InferState} {s : Subst} {t : Ty}
    (hpool : st.pool.Distinct) (henv : env.Admissible st.pool) (hlits : e.LitsGround)
    (hlets : e.NewLets fun name => env.contains name = true)
    (hrun : (e.infer env).run st = (.ok (s, t), st')) : HasType (env.apply s) e t := by
  have hinfers := infers_of_run hrun
  have hguard := henv.guarded
  have hconfined := hinfers.confined hpool hguard hlits
  have htyped : HasType (env.apply s) e (t.bind .var) := by
    refine hinfers.hasType hpool hguard hlits ?_ hlets ?_
    · intro name scheme hlookup
      rw [Env.contains, ← Std.ExtTreeMap.isSome_getElem?_eq_contains]
      exact Option.isSome_of_eq_some hlookup
    · rw [Subst.andThen_var]
      exact Env.Relates.apply_right fun name scheme hlookup =>
        Scheme.atLeast_applyScheme (hguard.avoids hconfined.subst hlookup)
  rwa [Ty.bind_var] at htyped

/-- The run of `let id = \x -> x in id y`, in an environment where `y` has a variable of its
own as its type. -/
theorem infer_sound_let_id :
    (infer (Env.empty.insert "y" (.mono (.var "A")))
        (.letIn "id" (.lam "x" (.var "x" none) none)
          (.app (.var "id" none) (.var "y" none) none) none)).run
      ⟨VarPool.default.reserve "A", []⟩ =
        (.ok (.ofList [("C", .var "D"), ("A", .var "D")], .var "D"),
          ⟨(((VarPool.default.reserve "A").reserve "B").reserve "C").reserve "D", []⟩) ∧
      HasType ((Env.empty.insert "y" (.mono (.var "A"))).apply
          (.ofList [("C", .var "D"), ("A", .var "D")]))
        (.letIn "id" (.lam "x" (.var "x" none) none)
          (.app (.var "id" none) (.var "y" none) none) none) (.var "D") := by
  have hpool := (VarPool.distinct_withColour VarPool.defaultColour).reserve "A"
  have henv : (Env.empty.insert "y" (.mono (.var "A"))).Admissible
      (VarPool.default.reserve "A") :=
    (Env.admissible_empty _).insert_mono "y" (by decide)
  refine ⟨?hrun, infer_sound hpool henv ?_ ?_ ?hrun⟩
  case hrun => cbv
  · simp [LitsGround]
  · simp [NewLets, Env.contains, Env.insert, Env.empty]

end Term

end Plugboard
