import Plugboard.Proofs.FoundTypes
import Plugboard.Proofs.Principality

/-!
# Terms with open holes

The holes of a term are bound to new type variables before the term is inferred, be it as a
function of them or with a type that is expected. What has a type by the rules, with types for the
holes, is inferred in this way; the types of the term and of the holes are an instance of what is
found, and variables that have been in circulation before are left alone.
-/

namespace Plugboard

open InferM

namespace Env

theorem apply_empty (env : Env) : env.apply .empty = env := by
  have hscheme : ∀ scheme : Scheme, Subst.empty.applyScheme scheme = scheme := fun scheme => by
    refine congrArg (Scheme.mk scheme.vars) ((Subst.applyScheme_body _ scheme).trans ?_)
    refine (Ty.bind_congr fun v _ => ?_).trans (Ty.bind_var _)
    rw [Subst.image_empty, ite_self]
  refine ext_lookup fun name => ?_
  rw [lookup_apply, funext hscheme, Option.map_id']

theorem free_insertMany {env : Env} {bindings : List (String × Scheme)} {v : String}
    (h : (env.insertMany bindings).Free v) :
    env.Free v ∨ ∃ binding ∈ bindings, binding.2.Free v := by
  induction bindings generalizing env with
  | nil => exact .inl h
  | cons binding bindings ih =>
      rcases ih h with hfree | ⟨binding', hmem, hfree⟩
      · rcases free_insert hfree with hfree | hfree
        · exact .inr ⟨binding, List.mem_cons_self, hfree⟩
        · exact .inl hfree
      · exact .inr ⟨binding', List.mem_cons_of_mem _ hmem, hfree⟩

end Env

/-- What the holes of a term are bound to. -/
def holeBindings (types : SocketId → Ty) (holes : List SocketId) : List (String × Scheme) :=
  holes.map fun s => (holeName s, .mono (types s))

namespace InferM

variable {st : InferState}

theorem run_bindHoles_cons {hole : SocketId} {holes : List SocketId} {st' : InferState}
    {bindings : List (String × Scheme)} :
    (bindHoles (hole :: holes)).run st = (.ok bindings, st') ↔ ∃ rest,
      (bindHoles holes).run { st with pool := st.pool.allocate.2 } = (.ok rest, st') ∧
      bindings = (holeName hole, .mono (.var st.pool.allocate.1)) :: rest := by
  have hfirst : (do return (holeName hole, .mono (← freshVar)) : InferM (String × Scheme)).run st =
      (.ok (holeName hole, .mono (.var st.pool.allocate.1)),
        { st with pool := st.pool.allocate.2 }) := rfl
  rw [bindHoles, List.mapM_cons, run_bind_of_ok hfirst, run_bind_eq_ok]
  refine exists_congr fun rest => ⟨?_, ?_⟩
  · rintro ⟨mid, hrest, h⟩
    cases h
    exact ⟨hrest, rfl⟩
  · rintro ⟨hrest, rfl⟩
    exact ⟨st', hrest, rfl⟩

/-- Holes are bound to new variables, which may stand for anything. -/
theorem exists_bindHoles (hpool : st.pool.Distinct) {holes : List SocketId} (hholes : holes.Nodup)
    (values : SocketId → Ty) (r : String → Ty) :
    ∃ (types : SocketId → Ty) (st' : InferState),
      (bindHoles holes).run st = (.ok (holeBindings types holes), st') ∧ st'.notes = st.notes ∧
      st.pool.Extended st'.pool ∧
      (∀ s ∈ holes, (types s).Over fun v => st'.pool.isUsed v ∧ ¬ st.pool.isUsed v) ∧
      ∃ q : String → Ty, (∀ s ∈ holes, (types s).bind q = values s) ∧
        ∀ v, st.pool.isUsed v → q v = r v := by
  induction holes generalizing st r with
  | nil =>
      exact ⟨fun _ => default, st, rfl, rfl, .refl _, fun s hs => (List.not_mem_nil hs).elim, r,
        fun s hs => (List.not_mem_nil hs).elim, fun _ _ => rfl⟩
  | cons hole holes ih =>
      obtain ⟨hnew, hholes⟩ := List.nodup_cons.1 hholes
      have hissues := VarPool.allocate_issues hpool
      obtain ⟨r', hr', hold⟩ := hissues.exists_extension r (values hole)
      obtain ⟨types, st', hrun, hnotes, hext, hover, q, hq, hq'⟩ :=
        @ih { st with pool := st.pool.allocate.2 } hissues.distinct hholes r'
      have hother : ∀ s ∈ holes, s ≠ hole := fun s hs heq => hnew (heq ▸ hs)
      let types' := Function.update types hole (.var st.pool.allocate.1)
      have hself : types' hole = .var st.pool.allocate.1 := Function.update_self ..
      have hrest : ∀ s ∈ holes, types' s = types s := fun s hs =>
        Function.update_of_ne (hother s hs) ..
      have hbindings : holeBindings types' (hole :: holes) =
          (holeName hole, .mono (.var st.pool.allocate.1)) :: holeBindings types holes := by
        rw [holeBindings, List.map_cons, hself]
        exact congrArg _ (List.map_congr_left fun s hs => by rw [hrest s hs])
      refine ⟨types', st', ?_, hnotes, (VarPool.Extended.allocate _).trans hext,
        List.forall_mem_cons.2 ⟨?_, fun s hs => ?_⟩, q,
        List.forall_mem_cons.2 ⟨?_, fun s hs => ?_⟩, fun v hv => ?_⟩
      · exact run_bindHoles_cons.2 ⟨_, hrun, hbindings⟩
      · rw [hself]
        exact .var ⟨hext.keeps hissues.distinct hissues.used, by simp [hissues.fresh]⟩
      · rw [hrest s hs]
        exact (hover s hs).mono fun v hv => ⟨hv.1, fun hused => hv.2 (hissues.keeps hused)⟩
      · rw [hself]
        exact (hq' _ hissues.used).trans hr'
      · rw [hrest s hs]
        exact hq s hs
      · exact (hq' v (hissues.keeps hv)).trans (hold v hv)

end InferM

namespace Lowered

variable {env env' : Env} {l : Lowered} {st st₁ st₂ : InferState} {types : SocketId → Ty}
  {s : Subst} {t : Ty}

/-- The term is inferred with its holes bound to new variables. -/
structure Opens (env : Env) (l : Lowered) (types : SocketId → Ty) (st st₁ st₂ : InferState)
    (s : Subst) (t : Ty) : Prop where
  holes : (bindHoles l.holes).run st = (.ok (holeBindings types l.holes), st₁)
  notes : st₁.notes = st.notes
  distinct : st₁.pool.Distinct
  guarded : (env.insertMany (holeBindings types l.holes)).Guarded st₁.pool
  term : (l.term.infer (env.insertMany (holeBindings types l.holes))).run st₁ = (.ok (s, t), st₂)

theorem exists_run_lamAll {e : Term} {holes : List SocketId} {bindings : List (String × Scheme)}
    (hholes : (bindHoles holes).run st = (.ok bindings, st₁))
    (hterm : (e.infer (env.insertMany bindings)).run st₁ = (.ok (s, t), st₂)) :
    ∃ t', ((Term.lamAll (holes.map holeName) e).infer env).run st = (.ok (s, t'), st₂) := by
  induction holes generalizing env st bindings with
  | nil =>
      cases hholes
      exact ⟨t, hterm⟩
  | cons hole holes ih =>
      obtain ⟨rest, hrest, rfl⟩ := run_bindHoles_cons.1 hholes
      obtain ⟨t', hrun⟩ := ih hrest hterm
      exact ⟨_, Term.run_infer_lam.2 ⟨t', st₂, hrun, rfl, rfl⟩⟩

namespace Opens

variable (h : l.Opens env types st st₁ st₂ s t)

include h

theorem run_inferSection : (l.inferSection env).run st = (.ok s, st₂) := by
  obtain ⟨t', hrun⟩ := exists_run_lamAll h.holes h.term
  exact run_bind_of_ok hrun

theorem run_inferAs (block : BlockId) {expected : Ty} {u : Subst}
    (hunify : unify t (s.apply expected) = .ok u) :
    (l.inferAs env block expected .empty).run st = (.ok (u.compose (s.compose .empty)), st₂) := by
  have hterm := h.term
  rw [← Env.apply_empty (env.insertMany _)] at hterm
  rw [inferAs, run_bind_of_ok h.holes, run_bind_of_ok hterm]
  refine run_bind_of_ok (run_unifyAt_eq_ok.2 ⟨?_, rfl⟩)
  rw [Subst.apply_empty]
  exact hunify

/-- A type that is expected is unified with the one that is found, if the two have an instance in
common, and what the holes stand for is an instance as before. -/
theorem exists_inferAs (henv : env.Over st.pool.Uses) (hpool : st.pool.Distinct)
    (hlits : l.term.LitsGround) (block : BlockId) {expected : Ty} {q : String → Ty}
    (hsolves : t.bind q = (s.apply expected).bind q) :
    ∃ σ : Subst, (l.inferAs env block expected .empty).run st = (.ok σ, st₂) ∧ σ.Idempotent ∧
      σ.Absorbs s ∧ ∀ u : Ty, (σ.apply u).bind q = (s.apply u).bind q := by
  obtain ⟨u, hunify⟩ := exists_unify_of_bind_eq hsolves
  have hrun := h.run_inferAs block hunify
  refine ⟨_, hrun, ?_⟩
  obtain ⟨bindings, s', t', st', hholes, -, -, -, -, -, hterm, hidem, habsorbs⟩ :=
    exists_run_of_inferAs hpool henv hlits .empty Subst.idempotent_empty hrun
  cases hholes.symm.trans h.holes
  rw [Env.apply_empty] at hterm
  cases hterm.symm.trans h.term
  refine ⟨hidem, (habsorbs _ hidem.absorbs).2.1, fun x => ?_⟩
  rw [Subst.apply_compose, Subst.apply_compose, Subst.apply_empty]
  exact bind_apply_of_unify hunify hsolves _

end Opens

/-- The types of the term and its holes are an instance of what is found. -/
theorem exists_opens (st : InferState) (henv : env.Over st.pool.Uses) {r : String → Ty}
    (hrelates : env.Relates (Scheme.AtMost r) env') (hpool : st.pool.Distinct)
    (hlits : l.term.LitsGround) (hholes : l.holes.Nodup) {values : SocketId → Ty} {u : Ty}
    (htyped : HasType (env'.insertMany (holeBindings values l.holes)) l.term u) :
    ∃ types st₁ st₂ s t, l.Opens env types st st₁ st₂ s t ∧
      (∀ v, st.pool.isUsed v → ¬ env.Free v → s.image v = .var v) ∧ ∃ q : String → Ty,
        t.bind q = u ∧ (∀ hole ∈ l.holes, (s.apply (types hole)).bind q = values hole) ∧
        ∀ v, st.pool.isUsed v → (s.image v).bind q = r v := by
  obtain ⟨types, st₁, hrun, hnotes, hext, hover, r', hvalues, hold⟩ :=
    exists_bindHoles hpool hholes values r
  have hused : ∀ v, st.pool.isUsed v → st₁.pool.isUsed v := fun v hv => hext.keeps hpool hv
  have hdistinct := hext.distinct hpool
  have hguard : (env.insertMany (holeBindings types l.holes)).Guarded st₁.pool :=
    Env.Admissible.guarded ((henv.mono hused).insertMany_mono
      (List.forall_mem_map.2 fun hole hhole => ⟨_, rfl, (hover hole hhole).mono fun _ => And.left⟩))
  have hrelates' : (env.insertMany (holeBindings types l.holes)).Relates (Scheme.AtMost r')
      (env'.insertMany (holeBindings values l.holes)) := by
    refine Env.Relates.insertMany (hrelates.imp fun name scheme scheme' hlookup hat =>
      hat.congr fun v hv => ?_) ?_
    · rcases henv name scheme hlookup with hclosed | ⟨-, hbody⟩
      · exact (hclosed v hv).elim
      · exact (hold v (hbody v hv.1)).symm
    · rw [holeBindings, holeBindings, List.forall₂_map_left_iff, List.forall₂_map_right_iff,
        List.forall₂_same]
      exact fun hole hhole => ⟨rfl, hvalues hole hhole ▸ Scheme.atMost_mono r' (types hole)⟩
  obtain ⟨s, t, pool, hinfers, q, hfactors⟩ :=
    htyped.exists_infers hdistinct hguard hlits hrelates'
  obtain ⟨notes, hterm⟩ := hinfers.exists_run st₁.notes
  refine ⟨types, st₁, _, s, t, ⟨hrun, hnotes, hdistinct, hguard, hterm⟩, fun v hv hfree => ?_, q,
    hfactors.type, fun hole hhole => ?_, fun v hv => ?_⟩
  · refine (hinfers.confined hdistinct hguard hlits).subst.image_eq ?_
    rintro (hfree' | ⟨-, hunused⟩)
    · rcases Env.free_insertMany hfree' with hfree' | ⟨binding, hmem, hscheme⟩
      · exact hfree hfree'
      · obtain ⟨hole, hhole, rfl⟩ := List.mem_map.1 hmem
        exact (hover hole hhole v (Scheme.free_mono.1 hscheme)).2 hv
    · exact hunused (hused v hv)
  · rw [← hvalues hole hhole, Subst.apply, Ty.bind_bind]
    exact Ty.bind_congr fun v hv => hfactors.subst v (hover hole hhole v hv).1
  · exact (hfactors.subst v (hused v hv)).trans (hold v hv)

end Lowered

end Plugboard
