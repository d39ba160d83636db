import Mathlib
import Plugboard.Proofs.NodeTypes

/-!
# The resolved types of all nodes

Where every node of a term has a tag of its own, the notes of a run say of each node which type it
has. Resolved against the substitution that the run answers they are a typing of the term, down to
the uses of the parameters.
-/

namespace Plugboard

open InferM Subst

theorem Scheme.instantiate_mono (t : Ty) (pool : VarPool) :
    (mono t).instantiate pool = (t, pool) := by
  have himage : (Subst.ofList []).image = Ty.var := funext Subst.image_ofList_nil
  rw [instantiate, mono, freshNames]
  exact congrArg (·, pool) ((congrArg t.bind himage).trans t.bind_var)

/-- The node has a tag, for which the type is listed. -/
def Records (notes : List (Tag × Ty)) (tag : Option Tag) (t : Ty) : Prop :=
  ∃ g ∈ tag, (g, t) ∈ notes

/-- The node has a tag, to which the map gives the type. -/
def Assigns (types : Std.ExtTreeMap Tag Ty) (tag : Option Tag) (t : Ty) : Prop :=
  ∃ g ∈ tag, types[g]? = some t

/-- Of notes for different tags each is one of the resolved types. -/
theorem Records.assigns {notes : List (Tag × Ty)} (hnodup : (notes.map Prod.fst).Nodup)
    {s : Subst} {tag : Option Tag} {t : Ty} (h : Records (s.applyNotes notes) tag t) :
    Assigns (resolve s notes) tag t := by
  obtain ⟨g, hg, hmem⟩ := h
  have hresolved : resolve s notes = .ofList (s.applyNotes notes).reverse := by
    rw [resolve, applyNotes, List.map_reverse]
  have hdistinct : (s.applyNotes notes).reverse.Pairwise fun a b => ¬ compare a.1 b.1 = .eq := by
    rw [List.pairwise_reverse, applyNotes, List.pairwise_map]
    refine (List.pairwise_map.1 hnodup).imp fun hne heq => hne ?_
    exact (Std.compare_eq_iff_eq.1 heq).symm
  refine ⟨g, hg, ?_⟩
  rw [hresolved]
  exact Std.ExtTreeMap.getElem?_ofList_of_mem Std.ReflCmp.compare_self hdistinct
    (List.mem_reverse.2 hmem)

namespace Term

/-- The tags of all nodes. -/
def nodeTags : Term → List (Option Tag)
  | .var _ tag | .lit _ tag => [tag]
  | .app func arg tag => tag :: (func.nodeTags ++ arg.nodeTags)
  | .lam _ body tag => tag :: body.nodeTags
  | .letIn _ bound body tag => tag :: (bound.nodeTags ++ body.nodeTags)

/-- The tags of the nodes where a name is used that is not bound further in. -/
def usesOf (name : String) : Term → List (Option Tag)
  | .var other tag => if other = name then [tag] else []
  | .lit _ _ => []
  | .app func arg _ => func.usesOf name ++ arg.usesOf name
  | .lam param body _ => if param = name then [] else body.usesOf name
  | .letIn other bound body _ =>
      bound.usesOf name ++ if other = name then [] else body.usesOf name

/-- The types of all nodes fit together, where `typed` tells the type of the node with a tag. -/
def Consistent (typed : Option Tag → Ty → Prop) : Term → Prop
  | .var _ tag => ∃ t, typed tag t
  | .lit t tag => typed tag t
  | .app func arg tag => func.Consistent typed ∧ arg.Consistent typed ∧
      ∃ a t, typed func.tag (.fn a t) ∧ typed arg.tag a ∧ typed tag t
  | .lam param body tag => body.Consistent typed ∧
      ∃ a t, typed tag (.fn a t) ∧ typed body.tag t ∧ ∀ use ∈ body.usesOf param, typed use a
  | .letIn _ bound body tag => bound.Consistent typed ∧ body.Consistent typed ∧
      ∃ t, typed body.tag t ∧ typed tag t

theorem Consistent.imp {typed typed' : Option Tag → Ty → Prop} {e : Term}
    (h : e.Consistent typed) (himp : ∀ {tag t}, typed tag t → typed' tag t) :
    e.Consistent typed' := by
  induction e with
  | var name tag =>
      obtain ⟨t, ht⟩ := h
      exact ⟨t, himp ht⟩
  | lit t tag => exact himp h
  | app func arg tag ihf iha =>
      obtain ⟨hfunc, harg, a, t, hf, ha, ht⟩ := h
      exact ⟨ihf hfunc, iha harg, a, t, himp hf, himp ha, himp ht⟩
  | lam param body tag ih =>
      obtain ⟨hbody, a, t, hfn, ht, huses⟩ := h
      exact ⟨ih hbody, a, t, himp hfn, himp ht, fun use huse => himp (huses use huse)⟩
  | letIn name bound body tag ihb ihe =>
      obtain ⟨hbound, hbody, t, hb, ht⟩ := h
      exact ⟨ihb hbound, ihe hbody, t, himp hb, himp ht⟩

/-- Under `r` the notes are a typing of the term, in which it has type `t` and every name that is
bound to a type in the environment has that type where it is used. -/
structure Recorded (env : Env) (e : Term) (t : Ty) (r : Subst) (notes : List (Tag × Ty)) :
    Prop where
  consistent : e.Consistent (Records (r.applyNotes notes))
  root : Records (r.applyNotes notes) e.tag (r.apply t)
  uses : ∀ {x u}, env.lookup x = some (.mono u) →
    ∀ use ∈ e.usesOf x, Records (r.applyNotes notes) use (r.apply u)

theorem records_noted (r : Subst) (g : Tag) (t : Ty) (notes : List (Tag × Ty)) :
    Records (r.applyNotes (noted (some g) t notes)) (some g) (r.apply t) :=
  ⟨g, rfl, List.mem_cons_self ..⟩

namespace Recorded

variable {env : Env} {e : Term} {t : Ty} {r s : Subst} {notes notes' : List (Tag × Ty)}

theorem mono (h : Recorded env e t r notes) (hsub : notes ⊆ notes') :
    Recorded env e t r notes' := by
  have hmem : ∀ {tag u}, Records (r.applyNotes notes) tag u → Records (r.applyNotes notes') tag u :=
    fun ⟨g, hg, hu⟩ => ⟨g, hg, List.map_subset _ hsub hu⟩
  exact ⟨h.consistent.imp hmem, hmem h.root, fun hlookup use huse => hmem (h.uses hlookup use huse)⟩

/-- A name that an earlier `s` has been applied to has the same type once `r` absorbs `s`. -/
theorem uses_of_apply {env' : Env} (h : Recorded env' e t r notes) (hr : r.Absorbs s) {x : String}
    (hsame : env'.lookup x = (env.apply s).lookup x) {u : Ty}
    (hlookup : env.lookup x = some (.mono u)) :
    ∀ use ∈ e.usesOf x, Records (r.applyNotes notes) use (r.apply u) := by
  rw [← hr.apply u]
  exact h.uses (by rw [hsame, Env.lookup_apply, hlookup, Option.map_some, applyScheme_mono])

theorem lit {u : Ty} (hlits : (Term.lit u none).LitsGround) (g : Tag) (r : Subst) :
    Recorded env (.lit u (some g)) u r (noted (some g) u []) := by
  have hroot := records_noted r g u []
  refine ⟨?_, hroot, fun _ _ huse => (List.not_mem_nil huse).elim⟩
  rwa [show r.apply u = u from Ty.bind_of_ground hlits r.image] at hroot

/-- A name that is bound to a type has it as the instance of its scheme. -/
theorem var {name : String} (g : Tag) (r : Subst)
    (hmono : ∀ {u}, env.lookup name = some (.mono u) → u = t) :
    Recorded env (.var name (some g)) t r (noted (some g) t []) := by
  have hroot := records_noted r g t []
  refine ⟨⟨_, hroot⟩, hroot, fun {x u} hx use huse => ?_⟩
  rw [usesOf] at huse
  split at huse
  next heq =>
    obtain rfl := List.mem_singleton.1 huse
    obtain rfl := hmono (heq ▸ hx)
    exact hroot
  next => exact (List.not_mem_nil huse).elim

/-- The parameter has one type in the body, wherever it is used. -/
theorem lam {param v : String} {body : Term} {u : Ty}
    (h : Recorded (env.insert param (.mono (.var v))) body u r notes) (g : Tag)
    (ht : r.apply t = .fn (r.image v) (r.apply u)) :
    Recorded env (.lam param body (some g)) t r (noted (some g) t notes) := by
  have hinner := h.mono (List.subset_cons_self (g, t) notes)
  have hroot := records_noted r g t notes
  refine ⟨⟨hinner.consistent, _, _, ht ▸ hroot, hinner.root, ?_⟩, hroot, ?_⟩
  · exact hinner.uses (Env.lookup_insert_self ..)
  · intro x u hx use huse
    rw [usesOf] at huse
    split at huse
    next => exact (List.not_mem_nil huse).elim
    next hne => exact hinner.uses (by rw [Env.lookup_insert, if_neg hne, hx]) use huse

variable {rest : List (Tag × Ty)}

theorem app {func arg : Term} {a u : Ty} (hfunc : Recorded env func u r notes)
    (harg : Recorded (env.apply s) arg a r rest) (g : Tag) (hr : r.Absorbs s)
    (hu : r.apply u = .fn (r.apply a) (r.apply t)) :
    Recorded env (.app func arg (some g)) t r (noted (some g) t (rest ++ notes)) := by
  have hfunc := hfunc.mono fun _ hn => List.mem_cons_of_mem (g, t) (List.mem_append_right rest hn)
  have harg := harg.mono fun _ hn => List.mem_cons_of_mem (g, t) (List.mem_append_left notes hn)
  have hroot := records_noted r g t (rest ++ notes)
  refine ⟨⟨hfunc.consistent, harg.consistent, _, _, hu ▸ hfunc.root, harg.root, hroot⟩, hroot, ?_⟩
  intro x u hx use huse
  rcases List.mem_append.1 huse with huse | huse
  · exact hfunc.uses hx use huse
  · exact harg.uses_of_apply hr rfl hx use huse

theorem letIn {env' : Env} {name : String} {bound body : Term} {u : Ty}
    (hbound : Recorded env bound u r notes) (hbody : Recorded env' body t r rest) (g : Tag)
    (hr : r.Absorbs s) (henv' : ∀ x ≠ name, env'.lookup x = (env.apply s).lookup x) :
    Recorded env (.letIn name bound body (some g)) t r (noted (some g) t (rest ++ notes)) := by
  have hbound := hbound.mono fun _ hn => List.mem_cons_of_mem (g, t) (List.mem_append_right rest hn)
  have hbody := hbody.mono fun _ hn => List.mem_cons_of_mem (g, t) (List.mem_append_left notes hn)
  have hroot := records_noted r g t (rest ++ notes)
  refine ⟨⟨hbound.consistent, hbody.consistent, _, hbody.root, hroot⟩, hroot, ?_⟩
  intro x u hx use huse
  rcases List.mem_append.1 huse with huse | huse
  · exact hbound.uses hx use huse
  · split at huse
    next => exact (List.not_mem_nil huse).elim
    next hne => exact hbody.uses_of_apply hr (henv' x (Ne.symm hne)) hx use huse

end Recorded

theorem tag_mem_nodeTags (e : Term) : e.tag ∈ e.nodeTags := by
  cases e <;> exact List.mem_cons_self ..

theorem exists_tag {e : Term} (h : none ∉ e.nodeTags) : ∃ g, e.tag = some g :=
  Option.ne_none_iff_exists'.1 fun hnone => h (hnone ▸ e.tag_mem_nodeTags)

/-- What is noted for the second of two terms comes first. -/
theorem perm_nodeTags_append {func arg : Term} {notes rest : List (Tag × Ty)}
    (hfunc : (notes.map fun n => some n.1).Perm func.nodeTags)
    (harg : (rest.map fun n => some n.1).Perm arg.nodeTags) :
    ((rest ++ notes).map fun n => some n.1).Perm (func.nodeTags ++ arg.nodeTags) := by
  rw [List.map_append]
  exact (harg.append hfunc).trans List.perm_append_comm

/-- The notes of a run are one for each node, and a typing under every substitution that absorbs
what the run has found. -/
theorem exists_recorded {env : Env} {e : Term} {st st' : InferState} {s : Subst} {t : Ty}
    (hpool : st.pool.Distinct) (hguard : env.Guarded st.pool) (hlits : e.LitsGround)
    (htags : none ∉ e.nodeTags) (hrun : (e.infer env).run st = (.ok (s, t), st')) :
    ∃ notes, st'.notes = notes ++ st.notes ∧
      (notes.map fun n => some n.1).Perm e.nodeTags ∧
      ∀ r : Subst, r.Absorbs s → Recorded env e t r notes := by
  induction e generalizing env st st' s t with
  | var name tag =>
      obtain ⟨scheme, hlookup, rfl, rfl, rfl⟩ := run_infer_var.1 hrun
      obtain ⟨g, rfl : tag = some g⟩ := exists_tag htags
      refine ⟨noted (some g) (scheme.instantiate st.pool).1 [], rfl, .refl _, fun r _ => ?_⟩
      refine .var g r fun hmono => ?_
      obtain rfl := Option.some.inj (hlookup.symm.trans hmono)
      rw [Scheme.instantiate_mono]
  | lit u tag =>
      obtain ⟨rfl, rfl, rfl⟩ := run_infer_lit.1 hrun
      obtain ⟨g, rfl : tag = some g⟩ := exists_tag htags
      exact ⟨noted (some g) t [], rfl, .refl _, fun r _ => .lit hlits g r⟩
  | lam param body tag ih =>
      obtain ⟨u, mid, hbody, rfl, rfl⟩ := run_infer_lam.1 hrun
      obtain ⟨g, rfl : tag = some g⟩ := exists_tag htags
      rw [nodeTags, List.mem_cons, not_or] at htags
      have hissues := VarPool.allocate_issues hpool
      obtain ⟨notes, hnotes, hperm, hrecorded⟩ := ih hissues.distinct
        (hguard.insert_mono hissues param) hlits htags.2 hbody
      refine ⟨noted (some g) (.fn (s.image st.pool.allocate.1) u) notes, ?_, hperm.cons _,
        fun r hr => (hrecorded r hr).lam g (congrArg (Ty.fn · _) (hr _))⟩
      rw [← noted_append, ← hnotes]
  | app func arg tag ihf iha =>
      obtain ⟨s₁, t₁, mid₁, s₂, t₂, mid₂, s₃, hfunc, harg, hunify, rfl, rfl, rfl⟩ :=
        run_infer_app.1 hrun
      obtain ⟨g, rfl : tag = some g⟩ := exists_tag htags
      rw [nodeTags, List.mem_cons, List.mem_append, not_or, not_or] at htags
      have hfuncRun := infers_of_run hfunc
      have hargRun := infers_of_run harg
      have hconfined := hfuncRun.confined hpool hguard hlits.1
      have hguard₁ := hconfined.guarded_apply hguard
      obtain ⟨hs₁, ht₁⟩ := hfuncRun.idempotent hpool hguard hlits.1
      obtain ⟨hs₂, ht₂⟩ := hargRun.idempotent hconfined.distinct hguard₁ hlits.2
      obtain ⟨hfollows, hfollows'⟩ :=
        follows_app hpool hguard hlits hfuncRun hargRun hunify hs₁ ht₁ hs₂ ht₂
      obtain ⟨notes₁, hnotes₁, hperm₁, hrecorded₁⟩ := ihf hpool hguard hlits.1 htags.2.1 hfunc
      obtain ⟨notes₂, hnotes₂, hperm₂, hrecorded₂⟩ :=
        iha hconfined.distinct hguard₁ hlits.2 htags.2.2 harg
      refine ⟨noted (some g) (s₃.image mid₂.pool.allocate.1) (notes₂ ++ notes₁), ?_,
        (perm_nodeTags_append hperm₁ hperm₂).cons _, fun r hr => ?_⟩
      · rw [← noted_append, List.append_assoc, ← hnotes₁, ← hnotes₂]
      · obtain ⟨hr₂₁, hr₃⟩ := hfollows'.absorbs (hfollows.idempotent hs₂ hs₁) hr
        obtain ⟨hr₁, hr₂⟩ := hfollows.absorbs hs₁ hr₂₁
        exact (hrecorded₁ r hr₁).app (hrecorded₂ r hr₂) g hr₁
          (apply_eq_fn_of_unify hunify hr₂ hr₃)
  | letIn name bound body tag ihb ihe =>
      obtain ⟨s₁, t₁, mid₁, s₂, mid₂, hbound, hbody, rfl, rfl⟩ := run_infer_letIn.1 hrun
      obtain ⟨g, rfl : tag = some g⟩ := exists_tag htags
      rw [nodeTags, List.mem_cons, List.mem_append, not_or, not_or] at htags
      have hboundRun := infers_of_run hbound
      have hconfined := hboundRun.confined hpool hguard hlits.1
      have hguard₁ := hconfined.guarded_define hguard name
      obtain ⟨hs₁, -⟩ := hboundRun.idempotent hpool hguard hlits.1
      have hfollows := follows_letIn hpool hguard hlits hboundRun (infers_of_run hbody) hs₁
      obtain ⟨notes₁, hnotes₁, hperm₁, hrecorded₁⟩ := ihb hpool hguard hlits.1 htags.2.1 hbound
      obtain ⟨notes₂, hnotes₂, hperm₂, hrecorded₂⟩ :=
        ihe hconfined.distinct hguard₁ hlits.2 htags.2.2 hbody
      refine ⟨noted (some g) t (notes₂ ++ notes₁), ?_,
        (perm_nodeTags_append hperm₁ hperm₂).cons _, fun r hr => ?_⟩
      · rw [← noted_append, List.append_assoc, ← hnotes₁, ← hnotes₂]
      · obtain ⟨hr₁, hr₂⟩ := hfollows.absorbs hs₁ hr
        refine (hrecorded₁ r hr₁).letIn (hrecorded₂ r hr₂) g hr₁ fun x hx => ?_
        rw [Env.define_eq, Env.lookup_insert, if_neg (Ne.symm hx)]

variable {env : Env} {e : Term} {pool : VarPool} {st : InferState} {s : Subst} {t : Ty}

/-- The resolved types of a term whose nodes all have tags of their own are a typing of the term,
in which it has the type that has been inferred. -/
theorem consistent_resolve (hpool : pool.Distinct) (henv : env.Admissible pool)
    (hlits : e.LitsGround) (htags : none ∉ e.nodeTags) (hnodup : e.nodeTags.Nodup)
    (hrun : (e.infer env).run (ofPool pool) = (.ok (s, t), st)) :
    s.apply t = t ∧ s.Idempotent ∧ e.Consistent (Assigns (resolve s st.notes)) ∧
      Assigns (resolve s st.notes) e.tag t := by
  obtain ⟨hs, ht⟩ := (infers_of_run hrun).idempotent hpool henv.guarded hlits
  have hresolved : s.apply t = t := apply_of_fixes ht fun _ => id
  obtain ⟨notes, hnotes, hperm, hrecorded⟩ :=
    @exists_recorded env e (ofPool pool) st s t hpool henv.guarded hlits htags hrun
  obtain rfl : st.notes = notes := hnotes.trans (List.append_nil notes)
  have hdistinct : (st.notes.map Prod.fst).Nodup := by
    have hsome : ((st.notes.map Prod.fst).map some).Nodup := by
      rw [List.map_map]
      exact hperm.nodup_iff.2 hnodup
    exact hsome.of_map
  have htyping := hrecorded s hs.absorbs
  exact ⟨hresolved, hs, htyping.consistent.imp fun h => h.assigns hdistinct,
    hresolved ▸ htyping.root.assigns hdistinct⟩

/-- The types of the nodes of `\x -> y x`, where `y` has the type `A`. -/
theorem consistent_resolve_apply_free :
    (infer (Env.empty.insert "y" (.mono (.var "A")))
        (.lam "x" (.app (.var "y" (some (.block ⟨2⟩))) (.var "x" (some (.block ⟨3⟩)))
          (some (.block ⟨1⟩))) (some (.block ⟨0⟩)))).run (ofPool (VarPool.default.reserve "A")) =
      (.ok (.ofList [("A", .fn (.var "B") (.var "C"))], .fn (.var "B") (.var "C")),
        ⟨((VarPool.default.reserve "A").reserve "B").reserve "C",
          [(.block ⟨0⟩, .fn (.var "B") (.var "C")), (.block ⟨1⟩, .var "C"),
            (.block ⟨3⟩, .var "B"), (.block ⟨2⟩, .var "A")]⟩) ∧
      Consistent (Assigns (resolve (.ofList [("A", .fn (.var "B") (.var "C"))])
          [(.block ⟨0⟩, .fn (.var "B") (.var "C")), (.block ⟨1⟩, .var "C"),
            (.block ⟨3⟩, .var "B"), (.block ⟨2⟩, .var "A")]))
        (.lam "x" (.app (.var "y" (some (.block ⟨2⟩))) (.var "x" (some (.block ⟨3⟩)))
          (some (.block ⟨1⟩))) (some (.block ⟨0⟩))) := by
  have hpool := (VarPool.distinct_withColour VarPool.defaultColour).reserve "A"
  have henv : (Env.empty.insert "y" (.mono (.var "A"))).Admissible (VarPool.default.reserve "A") :=
    (Env.admissible_empty _).insert_mono "y" (by decide)
  refine ⟨?hrun, (consistent_resolve hpool henv ?_ ?_ ?_ ?hrun).2.2.1⟩
  case hrun => cbv
  · simp [LitsGround]
  · decide
  · decide

end Term

end Plugboard
