import Mathlib
import Plugboard.Proofs.PairedInference

/-!
# One inference from two pools

Which names a pool hands out is of no consequence. A term is inferred from any two pools that know
the variables of its environment, and both runs find the same types, bindings and notes, or end
with the same error, up to one renaming that leaves the variables of the environment alone.
-/

namespace Plugboard

open Equiv InferM

namespace Subst

variable {s s' second first : Subst} {π : Perm String}

/-- Nothing is bound to itself. -/
def Proper (s : Subst) : Prop := ∀ v : String, v ∈ s.bindings → s.image v ≠ .var v

theorem proper_empty : empty.Proper := by simp [Proper, empty]

theorem Eliminates.proper {scope : List String} (h : s.Eliminates scope) : s.Proper := by
  intro v hv heq
  have hremoved := h.removes v v hv
  simp [heq, Ty.vars] at hremoved

/-- A variable that the first substitution replaces is not put back by the second one. -/
theorem Follows.proper (h : second.Follows first) (hsecond : second.Proper)
    (hfirst : first.Proper) : (second.compose first).Proper := by
  obtain ⟨scope, hwithin, hfixes⟩ := h
  intro v hv heq
  rw [image_compose] at heq
  by_cases hmem : v ∈ first.bindings
  · obtain ⟨w, hw, hback⟩ := Ty.eq_var_of_bind_eq_var heq
    rcases hwithin w with hsame | ⟨-, hscope⟩
    · obtain rfl := Ty.var.inj (hsame.symm.trans hback)
      exact hfirst w hmem hw
    · exact hfirst v hmem (hfixes v (hscope v (by simp [hback, Ty.vars])))
  · rw [image_of_not_mem hmem] at heq
    exact hsecond v ((mem_bindings_compose.1 hv).resolve_left hmem) heq

/-- Proper substitutions that do the same to types bind the same variables. -/
theorem Renamed.getElem?_bindings (h : Renamed π s s') (hs : s.Proper) (hs' : s'.Proper)
    (v : String) : s'.bindings[π v]? = s.bindings[v]?.map (Ty.rename π) := by
  have himage := h v
  rw [image, image] at himage
  cases hv : s.bindings[v]? with
  | none =>
      rw [hv] at himage
      cases hv' : s'.bindings[π v]? with
      | none => rfl
      | some t' =>
          have hmem : π v ∈ s'.bindings := Std.ExtTreeMap.mem_iff_isSome_getElem?.2 (by simp [hv'])
          exact (hs' _ hmem himage).elim
  | some t =>
      rw [hv] at himage
      cases hv' : s'.bindings[π v]? with
      | none =>
          have hmem : v ∈ s.bindings := Std.ExtTreeMap.mem_iff_isSome_getElem?.2 (by simp [hv])
          rw [hv'] at himage
          have hsame : t = .var v := Ty.rename_injective himage.symm
          exact (hs v hmem (by simp [image, hv, hsame])).elim
      | some t' =>
          rw [hv'] at himage
          exact congrArg some himage

end Subst

namespace Term

variable {env : Env} {e : Term} {pool pool' : VarPool} {s : Subst} {t : Ty}

theorem Infers.proper (h : Infers env e pool s t pool') (hpool : pool.Distinct)
    (hguard : env.Guarded pool) (hlits : e.LitsGround) : s.Proper := by
  induction h with
  | var | lit => exact Subst.proper_empty
  | lam tag hbody ih =>
      have hissues := VarPool.allocate_issues hpool
      exact ih hissues.distinct (hguard.insert_mono hissues _) hlits
  | app tag hfunc harg hunify ihf iha =>
      have hrun := hfunc.confined hpool hguard hlits.1
      have hguard₁ := hrun.guarded_apply hguard
      obtain ⟨hs₁, ht₁⟩ := hfunc.idempotent hpool hguard hlits.1
      obtain ⟨hs₂, ht₂⟩ := harg.idempotent hrun.distinct hguard₁ hlits.2
      obtain ⟨hfollows, hfollows'⟩ :=
        follows_app hpool hguard hlits hfunc harg hunify hs₁ ht₁ hs₂ ht₂
      have hproper := hfollows.proper (iha hrun.distinct hguard₁ hlits.2)
        (ihf hpool hguard hlits.1)
      exact hfollows'.proper (unify_eliminates hunify).proper hproper
  | @letIn _ name _ _ _ _ _ _ _ _ _ tag hbound hbody ihb ihe =>
      have hrun := hbound.confined hpool hguard hlits.1
      have hguard₁ := hrun.guarded_define hguard name
      have hfollows := follows_letIn hpool hguard hlits hbound hbody
        (hbound.idempotent hpool hguard hlits.1).1
      exact hfollows.proper (ihe hrun.distinct hguard₁ hlits.2) (ihb hpool hguard hlits.1)

end Term

/-- The schemes of an environment have no variables but its free ones and their own. -/
theorem Env.Admissible.over_free {env : Env} {pool : VarPool} (h : env.Admissible pool) :
    env.Over env.Free := fun name scheme hlookup =>
  (h name scheme hlookup).imp_right fun ⟨hmono, _⟩ =>
    ⟨hmono, fun _ hv => ⟨name, scheme, hlookup, hv, by simp [hmono]⟩⟩

namespace Pairing

variable {p : Pairing} {env : Env} {pool pool' : VarPool}

theorem notes_eq_map {notes notes' : List (Tag × Ty)}
    (h : List.Forall₂ (fun n n' => n.1 = n'.1 ∧ p.Types n.2 n'.2) notes notes') :
    notes' = notes.map fun n => (n.1, n.2.rename p.rename) := by
  induction h with
  | nil => rfl
  | cons hn _ ih => rw [List.map_cons, ← ih, hn.1, ← hn.2.eq]

/-- Two pools in which the same names are known, for what they are. -/
def shared (known : String → Prop) (hpool : pool.Distinct) (hpool' : pool'.Distinct)
    (hused : ∀ v, known v → pool.isUsed v) (hused' : ∀ v, known v → pool'.isUsed v) : Pairing where
  rename := 1
  known := known
  left := pool
  right := pool'
  left_distinct := hpool
  right_distinct := hpool'
  left_used := hused
  right_used := hused'

section

variable {known : String → Prop} {hpool : pool.Distinct} {hpool' : pool'.Distinct}
  {hused : ∀ v, known v → pool.isUsed v} {hused' : ∀ v, known v → pool'.isUsed v}

theorem types_shared {t : Ty} (h : t.Over known) :
    (shared known hpool hpool' hused hused').Types t t :=
  ⟨h, (Ty.bind_var t).symm⟩

/-- An environment with known variables is paired with itself. -/
theorem envs_shared (h : env.Over known) :
    (shared known hpool hpool' hused hused').Envs env env := by
  intro name
  cases hlookup : env.lookup name with
  | none => exact .none
  | some scheme =>
      refine .some ?_
      rcases h name scheme hlookup with hclosed | ⟨hmono, hover⟩
      · exact .closed hclosed
      · exact .renamed ⟨types_shared hover, fun _ => Iff.rfl, by simp [hmono]⟩

end

end Pairing

namespace Term

variable {env : Env} {e : Term} {pool pool' : VarPool}

/-- The outcomes of a term's inference from two pools are one and the same, renamed. -/
theorem infer_renamed (hpool : pool.Distinct) (hpool' : pool'.Distinct)
    (henv : env.Admissible pool) (henv' : env.Admissible pool') (hlits : e.LitsGround) :
    ∃ π : Perm String, (∀ v, env.Free v → π v = v) ∧
      Outcomes
        (fun r r' => (∀ v : String, r'.1.bindings[π v]? = r.1.bindings[v]?.map (Ty.rename π)) ∧
          r'.2 = r.2.rename π)
        (fun err err' => err' = err.rename π)
        ((e.infer env).run (ofPool pool)).1 ((e.infer env).run (ofPool pool')).1 ∧
      ((e.infer env).run (ofPool pool')).2.notes =
        ((e.infer env).run (ofPool pool)).2.notes.map fun n => (n.1, n.2.rename π) := by
  let p := Pairing.shared env.Free hpool hpool' henv.guarded.used henv'.guarded.used
  have hpaired : p.Envs env env := Pairing.envs_shared henv.over_free
  obtain ⟨q, hle, hout, hst⟩ :=
    Pairing.parallel_infer hlits hpaired (ofPool pool) (ofPool pool') ⟨rfl, rfl, .nil⟩
  refine ⟨q.rename, fun v hv => hle.rename v hv, ?_, ?_⟩
  · rcases hrun : (e.infer env).run (ofPool pool) with ⟨r, st⟩
    rcases hrun' : (e.infer env).run (ofPool pool') with ⟨r', st'⟩
    rw [show StateT.run (ExceptT.run (e.infer env)) (ofPool pool) = _ from hrun,
      show StateT.run (ExceptT.run (e.infer env)) (ofPool pool') = _ from hrun'] at hout
    cases hout with
    | error herror => exact .error herror
    | ok hanswers =>
        have hs := (infers_of_run hrun).proper hpool henv.guarded hlits
        have hs' := (infers_of_run hrun').proper hpool' henv'.guarded hlits
        exact .ok ⟨hanswers.subst.renamed.getElem?_bindings hs hs', hanswers.type.eq⟩
  · exact Pairing.notes_eq_map hst.notes

/-- The type of `\x -> y x`, where `y` has the type `A`. -/
theorem infer_renamed_apply_free :
    ∃ π : Perm String, π "A" = "A" ∧
      ((infer (Env.empty.insert "y" (.mono (.var "A")))
        (.lam "x" (.app (.var "y" none) (.var "x" none) none) none)).run
          (ofPool (VarPool.default.reserve "A"))).1 =
        .ok (.ofList [("A", .fn (.var "B") (.var "C"))], .fn (.var "B") (.var "C")) ∧
      ((infer (Env.empty.insert "y" (.mono (.var "A")))
        (.lam "x" (.app (.var "y" none) (.var "x" none) none) none)).run
          (ofPool ((VarPool.default.reserve "A").reserve "C"))).1 =
        .ok (.ofList [("A", .fn (.var "B") (.var "D"))], .fn (.var "B") (.var "D")) ∧
      Ty.fn (.var "B") (.var "D") = (Ty.fn (.var "B") (.var "C")).rename π := by
  have hpool : (VarPool.default.reserve "A").Distinct := (VarPool.distinct_withColour _).reserve "A"
  have henv : (Env.empty.insert "y" (.mono (.var "A"))).Admissible (VarPool.default.reserve "A") :=
    (Env.admissible_empty _).insert_mono "y" (by decide)
  have henv' : (Env.empty.insert "y" (.mono (.var "A"))).Admissible
      ((VarPool.default.reserve "A").reserve "C") :=
    (Env.admissible_empty _).insert_mono "y" (by decide)
  have hfree : (Env.empty.insert "y" (.mono (.var "A"))).Free "A" :=
    ⟨"y", _, Env.lookup_insert_self .., by simp [Scheme.mono, Scheme.Free, Ty.vars]⟩
  obtain ⟨π, hfixes, hout, -⟩ := infer_renamed hpool (hpool.reserve "C") henv henv'
    (e := .lam "x" (.app (.var "y" none) (.var "x" none) none) none) (by simp [LitsGround])
  refine ⟨π, hfixes "A" hfree, ?hrun, ?hrun', (hout.of_ok ?hrun ?hrun').2⟩
  case hrun => cbv
  case hrun' => cbv

end Term

end Plugboard
