import Plugboard.Proofs.LoweredTerms
import Plugboard.Proofs.TreeInference

/-!
# The variables that inference leaves behind

However inference ends, the pool has only been allocated from, and the types that have been noted
have no variables but used ones. The same holds of what a group of functions is found to be, whose
members are bound to closed schemes.
-/

namespace Plugboard

/-- A run in the environment captures nothing, and touches none of the old names. -/
structure Env.Apart (old : String → Prop) (env : Env) (pool : VarPool) : Prop where
  keeps : pool.Keeps old
  guarded : env.Guarded pool
  avoids : ∀ v, env.Free v → ¬ old v

namespace Env.Apart

variable {env : Env} {old : String → Prop} {pool pool' : VarPool} {s : Subst} {t : Ty}

theorem own_of_scope (h : env.Apart old pool) (hkeeps : ∀ v, pool.isUsed v → pool'.isUsed v)
    {v : String} (hv : env.Scope pool pool' v) : pool'.Own old v := by
  rcases hv with hfree | ⟨hused, hunused⟩
  · exact ⟨hkeeps v (h.guarded.used v hfree), h.avoids v hfree⟩
  · exact h.keeps.own_of_fresh hunused hused

theorem insert_mono (h : env.Apart old pool) (name : String) :
    (env.insert name (.mono (.var pool.allocate.1))).Apart old pool.allocate.2 where
  keeps := h.keeps.extended (.allocate pool)
  guarded := h.guarded.insert_mono (VarPool.allocate_issues h.keeps.distinct) name
  avoids v hv := by
    rcases Env.free_insert hv with hv | hv
    · rw [Ty.mem_vars_var.1 (Scheme.free_mono.1 hv)]
      exact h.keeps.own_allocate.2
    · exact h.avoids v hv

theorem apply (h : env.Apart old pool) (hrun : Term.Confined env pool s t pool') :
    (env.apply s).Apart old pool' where
  keeps := ⟨hrun.distinct, fun v hv => hrun.keeps v (h.keeps.used v hv)⟩
  guarded := hrun.guarded_apply h.guarded
  avoids _ hv := (h.own_of_scope hrun.keeps (Env.Guarded.scope_of_free_apply hrun.subst hv)).2

theorem define (h : env.Apart old pool) (hrun : Term.Confined env pool s t pool')
    (name : String) : (env.define name s t).Apart old pool' where
  keeps := (h.apply hrun).keeps
  guarded := hrun.guarded_define h.guarded name
  avoids v hv := (h.apply hrun).avoids v (Env.free_define hv)

end Env.Apart

/-- Inference has only allocated, and noted types over the names in use but for the old ones. -/
structure InferState.Continues (old : String → Prop) (st st' : InferState) : Prop where
  pool : st.pool.Extended st'.pool
  notes : (∀ n ∈ st.notes, n.2.Over (st.pool.Own old)) →
    ∀ n ∈ st'.notes, n.2.Over (st'.pool.Own old)

namespace InferState.Continues

variable {old : String → Prop} {st st' st'' : InferState}

theorem refl (st : InferState) : st.Continues old st := ⟨.refl _, id⟩

theorem trans (h : st.Continues old st') (h' : st'.Continues old st'') : st.Continues old st'' :=
  ⟨h.pool.trans h'.pool, fun hst => h'.notes (h.notes hst)⟩

theorem of_extended (hpool : st.pool.Keeps old) {pool : VarPool} (h : st.pool.Extended pool) :
    st.Continues old { st with pool } :=
  ⟨h, fun hst n hn => (hst n hn).mono fun _ => hpool.own h⟩

end InferState.Continues

namespace InferM

open InferState

variable {old : String → Prop} {st : InferState}

theorem ends_freshVar (hpool : st.pool.Keeps old) :
    Ends freshVar st (fun t st' => t = .var st.pool.allocate.1 ∧ st'.pool = st.pool.allocate.2 ∧
      st.Continues old st') fun _ => False :=
  ⟨rfl, rfl, .of_extended hpool (.allocate st.pool)⟩

theorem ends_note (tag : Option Tag) {t : Ty} (ht : t.Over (st.pool.Own old)) :
    Ends (note tag t) st (fun _ st' => st'.pool = st.pool ∧ st.Continues old st')
      fun _ => False := by
  cases tag with
  | none => exact ⟨rfl, .refl st⟩
  | some tag => exact ⟨rfl, .refl _, fun hst => List.forall_mem_cons.2 ⟨ht, hst⟩⟩

theorem ends_unifyAt {tag : Option Tag} {a b : Ty} :
    Ends (unifyAt tag a b) st (fun s st' => st' = st ∧ unify a b = .ok s) (· = st) := by
  rw [unifyAt]
  cases unify a b with
  | ok s => exact ⟨rfl, rfl⟩
  | error e => rfl

end InferM

namespace Term

open InferM InferState

variable {old : String → Prop}

/-- A run of inference, whether it succeeds or fails. -/
theorem ends_infer {env : Env} {e : Term} {st : InferState} (henv : env.Apart old st.pool)
    (hlits : e.LitsGround) :
    Ends (e.infer env) st
      (fun r st' => Infers env e st.pool r.1 r.2 st'.pool ∧ st.Continues old st')
      fun st' => st.Continues old st' := by
  have hconfined : ∀ {env : Env} {e : Term} {pool pool' : VarPool} {s : Subst} {t : Ty},
      env.Apart old pool → e.LitsGround → Infers env e pool s t pool' →
      Confined env pool s t pool' :=
    fun henv hlits hrun => hrun.confined henv.keeps.distinct henv.guarded hlits
  -- the answer is noted at the end of each successful run
  have hnote : ∀ {env : Env} {e : Term} {st st' : InferState} {s : Subst} {t : Ty},
      env.Apart old st.pool → e.LitsGround → ∀ tag : Option Tag,
      Infers env e st.pool s t st'.pool → st.Continues old st' →
      Ends (do note tag t; return (s, t)) st'
        (fun r st'' => Infers env e st.pool r.1 r.2 st''.pool ∧ st.Continues old st'')
        fun st'' => st.Continues old st'' := by
    intro env e st st' s t henv hlits tag hrun hcont
    have hscope := hconfined henv hlits hrun
    have hover : t.Over (st'.pool.Own old) := fun v hv =>
      henv.own_of_scope hscope.keeps (hscope.type v hv)
    rw [ends_bind]
    refine (ends_note tag hover).imp (fun _ st'' hnoted => ?_) fun _ => False.elim
    exact ⟨hnoted.1 ▸ hrun, hcont.trans hnoted.2⟩
  induction e generalizing env st with
  | var name tag =>
      rw [infer]
      cases hlookup : env.lookup name with
      | none => exact .refl st
      | some scheme =>
          have hcont : st.Continues old { st with pool := (scheme.instantiate st.pool).2 } :=
            .of_extended henv.keeps (Scheme.freshNames_extended scheme.vars st.pool)
          exact hnote henv hlits tag (.var tag hlookup) hcont
  | lit t tag => exact hnote henv hlits tag (.lit t tag) (.refl st)
  | lam param body tag ih =>
      have hcont : st.Continues old { st with pool := st.pool.allocate.2 } :=
        .of_extended henv.keeps (.allocate st.pool)
      rw [infer, ends_bind]
      change Ends _ { st with pool := st.pool.allocate.2 } _ _
      rw [ends_bind]
      have hrun := @ih _ { st with pool := st.pool.allocate.2 } (henv.insert_mono param) hlits
      refine hrun.imp (fun r st₁ hbody => ?_) fun st₁ hcont₁ => hcont.trans hcont₁
      exact hnote henv hlits tag (.lam tag hbody.1) (hcont.trans hbody.2)
  | app func arg tag ihf iha =>
      rw [infer, ends_bind]
      refine (ihf henv hlits.1).imp (fun r₁ st₁ hended => ?_) fun _ => id
      obtain ⟨hfunc, hcont₁⟩ := hended
      have henv₁ := henv.apply (hconfined henv hlits.1 hfunc)
      rw [ends_bind]
      refine (iha henv₁ hlits.2).imp (fun r₂ st₂ hended => ?_) fun _ => hcont₁.trans
      obtain ⟨harg, hcont₂⟩ := hended
      have henv₂ := henv₁.apply (hconfined henv₁ hlits.2 harg)
      have hcont : st.Continues old { st₂ with pool := st₂.pool.allocate.2 } :=
        (hcont₁.trans hcont₂).trans (.of_extended henv₂.keeps (.allocate st₂.pool))
      rw [ends_bind]
      change Ends _ { st₂ with pool := st₂.pool.allocate.2 } _ _
      rw [ends_bind]
      refine ends_unifyAt.imp (fun s₃ st₃ hended => ?_) fun st₃ hst₃ => hst₃ ▸ hcont
      obtain ⟨rfl, hunify⟩ := hended
      exact hnote henv hlits tag (.app tag hfunc harg hunify) hcont
  | letIn name bound body tag ihb ihe =>
      rw [infer, ends_bind]
      refine (ihb henv hlits.1).imp (fun r₁ st₁ hended => ?_) fun _ => id
      obtain ⟨hbound, hcont₁⟩ := hended
      have henv₁ := henv.define (hconfined henv hlits.1 hbound) name
      dsimp only
      rw [ends_bind]
      refine (ihe henv₁ hlits.2).imp (fun r₂ st₂ hended => ?_) fun _ => hcont₁.trans
      obtain ⟨hbody, hcont₂⟩ := hended
      exact hnote henv hlits tag (.letIn tag hbound hbody) (hcont₁.trans hcont₂)

end Term

namespace Env.Closed

variable {env : Env}

theorem closed_generalize (h : env.Closed) (t : Ty) : (env.generalize t).Closed := by
  intro v hv
  obtain ⟨name, scheme, hlookup, hfree⟩ := (Env.free_generalize.1 hv).2
  exact h name scheme hlookup v hfree

theorem apply_eq (h : env.Closed) (s : Subst) : env.apply s = env := by
  refine Env.ext_lookup fun name => ?_
  rw [Env.lookup_apply]
  cases hlookup : env.lookup name with
  | none => rfl
  | some scheme => exact congrArg some (s.applyScheme_of_closed (h name scheme hlookup))

end Env.Closed

/-- Every scheme is closed, or it is monomorphic and over a scope. -/
def Env.Over (scope : String → Prop) (env : Env) : Prop :=
  ∀ name scheme, env.lookup name = some scheme →
    scheme.Closed ∨ scheme.vars = [] ∧ scheme.body.Over scope

namespace Env.Over

variable {env : Env} {scope scope' : String → Prop}

theorem of_closed (h : env.Closed) (scope : String → Prop) : env.Over scope :=
  fun name scheme hlookup => .inl (h name scheme hlookup)

theorem mono (h : env.Over scope) (hsub : ∀ v, scope v → scope' v) : env.Over scope' :=
  fun name scheme hlookup => (h name scheme hlookup).imp_right fun ⟨hmono, hover⟩ =>
    ⟨hmono, hover.mono hsub⟩

theorem insert_mono (h : env.Over scope) (name : String) {t : Ty} (ht : t.Over scope) :
    (env.insert name (.mono t)).Over scope := by
  intro name' scheme hlookup
  rw [lookup_insert] at hlookup
  split at hlookup
  · cases hlookup
    exact .inr ⟨rfl, ht⟩
  · exact h name' scheme hlookup

theorem insertMany_mono (h : env.Over scope) {bindings : List (String × Scheme)}
    (hbindings : ∀ binding ∈ bindings, ∃ t : Ty, binding.2 = .mono t ∧ t.Over scope) :
    (env.insertMany bindings).Over scope := by
  induction bindings generalizing env with
  | nil => exact h
  | cons binding bindings ih =>
      obtain ⟨name, scheme⟩ := binding
      rw [List.forall_mem_cons] at hbindings
      obtain ⟨⟨t, rfl, hover⟩, hrest⟩ := hbindings
      exact ih (h.insert_mono name hover) hrest

theorem apply (h : env.Over scope) {s : Subst} (hs : s.Within scope) :
    (env.apply s).Over scope := by
  intro name scheme hlookup
  rw [lookup_apply, Option.map_eq_some_iff] at hlookup
  obtain ⟨scheme, hlookup, rfl⟩ := hlookup
  rcases h name scheme hlookup with hclosed | ⟨hmono, hover⟩
  · rw [Subst.applyScheme_of_closed s hclosed]
    exact .inl hclosed
  · obtain ⟨vars, body⟩ := scheme
    obtain rfl : vars = [] := hmono
    exact .inr ⟨rfl, by
      rw [show (⟨[], body⟩ : Scheme) = .mono body from rfl, Subst.applyScheme_mono]
      exact hs.apply hover⟩

theorem apart {old : String → Prop} {pool : VarPool} (h : env.Over (pool.Own old))
    (hpool : pool.Keeps old) : env.Apart old pool where
  keeps := hpool
  guarded := Admissible.guarded (h.mono fun _ => And.left)
  avoids v hv := by
    obtain ⟨name, scheme, hlookup, hfree⟩ := hv
    rcases h name scheme hlookup with hclosed | ⟨-, hover⟩
    · exact (hclosed v hfree).elim
    · exact (hover v hfree.1).2

end Env.Over

namespace Lowered

open InferM InferState

variable {old : String → Prop} {st : InferState} {env : Env} {l : Lowered}

theorem ends_bindHoles (hpool : st.pool.Keeps old) (holes : List SocketId) :
    Ends (bindHoles holes) st (fun bindings st' => bindings.map (·.1) = holes.map holeName ∧
      (∀ binding ∈ bindings, ∃ t : Ty, binding.2 = .mono t ∧ t.Over (st'.pool.Own old)) ∧
      st.Continues old st') fun _ => False := by
  induction holes generalizing st with
  | nil => exact ⟨rfl, fun binding hbinding => (List.not_mem_nil hbinding).elim, .refl st⟩
  | cons hole holes ih =>
      rw [bindHoles, List.mapM_cons, ends_bind, ends_bind]
      refine (ends_freshVar hpool).imp (fun t st₁ ⟨ht, hst₁, hcont₁⟩ => ?_) fun _ => id
      have hpool₁ := hpool.extended hcont₁.pool
      rw [ends_pure, ends_bind]
      refine (ih hpool₁).imp (fun bindings st₂ ⟨hnames, hbindings, hcont₂⟩ => ?_) fun _ => id
      refine ⟨congrArg (_ :: ·) hnames, List.forall_mem_cons.2 ⟨⟨t, rfl, ?_⟩, hbindings⟩,
        hcont₁.trans hcont₂⟩
      have hused : t.Over (st₁.pool.Own old) := by
        rw [ht, hst₁]
        exact .var hpool.own_allocate
      exact hused.mono fun _ => hpool₁.own hcont₂.pool

/-- A block whose type is expected to be over the names that are not old. -/
theorem ends_inferAs (hpool : st.pool.Keeps old) (henv : env.Over (st.pool.Own old))
    (hlits : l.term.LitsGround) {block : BlockId} {expected : Ty}
    (hexpected : expected.Over (st.pool.Own old)) {before : Subst}
    (hbefore : before.Within (st.pool.Own old)) :
    Ends (l.inferAs env block expected before) st
      (fun s st' => s.Within (st'.pool.Own old) ∧ st.Continues old st')
      fun st' => st.Continues old st' := by
  rw [inferAs, ends_bind]
  refine (ends_bindHoles hpool l.holes).imp (fun bindings st₁ ⟨_, hbindings, hcont₁⟩ => ?_)
    fun _ => False.elim
  have hown₁ : ∀ v, st.pool.Own old v → st₁.pool.Own old v := fun _ => hpool.own hcont₁.pool
  have hapart := (((henv.mono hown₁).insertMany_mono hbindings).apply (hbefore.mono hown₁)).apart
    (hpool.extended hcont₁.pool)
  rw [ends_bind]
  refine (Term.ends_infer hapart hlits).imp (fun r st₂ ⟨hrun, hcont₂⟩ => ?_) fun _ => hcont₁.trans
  have hconfined := hrun.confined hapart.keeps.distinct hapart.guarded hlits
  have hown₂ : ∀ v, st.pool.Own old v → st₂.pool.Own old v := fun v hv =>
    hapart.keeps.own hcont₂.pool (hown₁ v hv)
  have hscope : ∀ v, Env.Scope _ st₁.pool st₂.pool v → st₂.pool.Own old v := fun _ =>
    hapart.own_of_scope hconfined.keeps
  have hs : r.1.Within (st₂.pool.Own old) := hconfined.subst.mono hscope
  have hbefore₂ : before.Within (st₂.pool.Own old) := hbefore.mono hown₂
  obtain ⟨s, t⟩ := r
  dsimp only
  rw [ends_bind]
  refine ends_unifyAt.imp (fun u st₃ ⟨hst₃, hunify⟩ => ?_) fun st₃ hst₃ => ?_
  · subst hst₃
    have hu : u.Within (st₃.pool.Own old) := (unify_eliminates hunify).within fun v hv => by
      rcases List.mem_append.1 hv with hv | hv
      · exact hscope v (hconfined.type v hv)
      · exact hs.apply (hbefore₂.apply (hexpected.mono hown₂)) v hv
    exact ⟨hu.compose (hs.compose hbefore₂), hcont₁.trans hcont₂⟩
  · exact hst₃ ▸ hcont₁.trans hcont₂

theorem litsGround_toSection (h : l.term.LitsGround) : l.toSection.LitsGround :=
  (Term.structural_litsGround (fun _ => True) fun _ => True).lamAll (fun _ _ => trivial) h

theorem ends_inferSection (hpool : st.pool.Keeps old) (henv : env.Over (st.pool.Own old))
    (hlits : l.term.LitsGround) :
    Ends (l.inferSection env) st (fun s st' => s.Within (st'.pool.Own old) ∧ st.Continues old st')
      fun st' => st.Continues old st' := by
  rw [inferSection, ends_bind]
  have hapart := henv.apart hpool
  have hsection := litsGround_toSection hlits
  refine (Term.ends_infer hapart hsection).imp (fun r st₁ ⟨hrun, hcont⟩ => ⟨?_, hcont⟩) fun _ => id
  have hconfined := hrun.confined hpool.distinct hapart.guarded hsection
  exact hconfined.subst.mono fun _ => hapart.own_of_scope hconfined.keeps

theorem ends_inference (hpool : st.pool.Keeps old) (henv : env.Over (st.pool.Own old))
    (hlits : l.term.LitsGround) (root : BlockId) {expected : Option Ty}
    (hexpected : ∀ t ∈ expected, t.Over (st.pool.Own old)) :
    Ends (l.inference env root expected) st
      (fun s st' => s.Within (st'.pool.Own old) ∧ st.Continues old st')
      fun st' => st.Continues old st' := by
  cases expected with
  | some t => exact ends_inferAs hpool henv hlits (hexpected t rfl) .empty
  | none => exact ends_inferSection hpool henv hlits

end Lowered

theorem InferM.over_of_resolve {s : Subst} {notes : List (Tag × Ty)} {scope : String → Prop}
    (hs : s.Within scope) (hnotes : ∀ n ∈ notes, n.2.Over scope) {tag : Tag} {t : Ty}
    (h : (resolve s notes)[tag]? = some t) : t.Over scope := by
  have hmem := mem_of_getElem?_ofList h
  simp only [List.mem_map, List.mem_reverse, Prod.mk.injEq, Prod.exists] at hmem
  obtain ⟨tag', t', hn, -, rfl⟩ := hmem
  exact hs.apply (hnotes _ hn)

namespace FunctionGroup

open InferM InferState

variable {old : String → Prop}

theorem run_attempt {α : Type} (x : InferM α) (st : InferState) :
    (attempt x).run st =
      match x.run st with
      | (.ok a, st') => (.ok a, st')
      | (.error e, st') =>
          (.error e,
            { st' with notes := st'.notes.drop (st'.notes.length - st.notes.length) }) := by
  rw [attempt, StateT.run_bind, StateT.run_get, pure_bind, StateT.run_bind]
  rcases hx : x.run st with ⟨e | a, st'⟩ <;> rw [show StateT.run (ExceptT.run x) st = _ from hx] <;>
    rfl

/-- An attempt ends as the action does, but for the notes of an action that fails. -/
theorem attempt_of_ends {α : Type} {x : InferM α} {st : InferState} {Q : α → InferState → Prop}
    (h : Ends x st Q fun st' => st.Continues old st') :
    match (attempt x).run st with
    | (.ok a, st') => Q a st'
    | (.error _, st') => st.Continues old st' := by
  rw [run_attempt]
  unfold Ends at h
  generalize x.run st = out at h ⊢
  rcases out with ⟨e | a, st'⟩
  · replace h : st.Continues old st' := h
    exact ⟨h.pool, fun hst n hn => h.notes hst n (List.mem_of_mem_drop hn)⟩
  · exact h

variable {env : Env} {st : InferState}

theorem run_freshVars {α : Type} (hpool : st.pool.Keeps old) (xs : List α) :
    let r := (xs.mapM fun _ => freshVar).run st
    (∀ t ∈ r.1, t.Over (r.2.pool.Own old)) ∧ st.Continues old r.2 := by
  induction xs generalizing st with
  | nil => exact ⟨fun t ht => (List.not_mem_nil ht).elim, .refl st⟩
  | cons x xs ih =>
      have hpool₁ : st.pool.allocate.2.Keeps old := hpool.extended (.allocate st.pool)
      rw [List.mapM_cons]
      have hrest := @ih { st with pool := st.pool.allocate.2 } hpool₁
      refine ⟨List.forall_mem_cons.2 ⟨.var ?_, hrest.1⟩, ?_⟩
      · exact hpool₁.own hrest.2.pool hpool.own_allocate
      · exact (InferState.Continues.of_extended hpool (.allocate st.pool)).trans hrest.2

theorem ends_inferBody {m : Member} {self : Ty} {s : Subst} (hpool : st.pool.Keeps old)
    (henv : env.Over (st.pool.Own old)) (hlits : ∀ l, m.lowered = .ok l → l.term.LitsGround)
    (hself : self.Over (st.pool.Own old)) (hs : s.Within (st.pool.Own old)) :
    Ends (inferBody env m self s) st
      (fun s' st' => s'.Within (st'.pool.Own old) ∧ st.Continues old st')
      fun st' => st.Continues old st' := by
  rw [inferBody]
  cases hlowered : m.lowered with
  | ok l => exact l.ends_inferAs hpool henv (hlits l hlowered) hself hs
  | error e => exact .refl st

theorem run_inferBodies {bodies : List (Member × Ty)} (hpool : st.pool.Keeps old)
    (henv : env.Over (st.pool.Own old))
    (hlits : ∀ body ∈ bodies, ∀ l, body.1.lowered = .ok l → l.term.LitsGround)
    (hselves : ∀ body ∈ bodies, body.2.Over (st.pool.Own old)) {s : Subst}
    (hs : s.Within (st.pool.Own old)) :
    let r := (inferBodies env bodies s).run st
    r.1.1.Within (r.2.pool.Own old) ∧ st.Continues old r.2 := by
  induction bodies generalizing st s with
  | nil => exact ⟨hs, .refl st⟩
  | cons body bodies ih =>
      obtain ⟨m, self⟩ := body
      rw [List.forall_mem_cons] at hlits hselves
      -- whatever becomes of the first body, the others find the pool extended
      have hrest : ∀ {st' : InferState} {s' : Subst}, s'.Within (st'.pool.Own old) →
          st.Continues old st' →
          let r := (inferBodies env bodies s').run st'
          r.1.1.Within (r.2.pool.Own old) ∧ st.Continues old r.2 := by
        intro st' s' hs' hcont
        have hown : ∀ v, st.pool.Own old v → st'.pool.Own old v := fun _ => hpool.own hcont.pool
        have hr := ih (hpool.extended hcont.pool) (henv.mono hown) hlits.2
          (fun body hmem => (hselves.2 body hmem).mono hown) hs'
        exact ⟨hr.1, hcont.trans hr.2⟩
      have hattempt := attempt_of_ends (ends_inferBody hpool henv hlits.1 hselves.1 hs)
      rw [inferBodies, StateT.run_bind]
      rcases hrun : (attempt (inferBody env m self s)).run st with ⟨e | s', st'⟩ <;>
        rw [hrun] at hattempt
      · exact hrest (hs.mono fun _ => hpool.own hattempt.pool) hattempt
      · exact hrest hattempt.1 hattempt.2

theorem extended_bindings (env : Env) (s : Subst) (found : List (Ty × Option TypeError))
    (st : InferState) :
    st.pool.Extended
      ((found.mapM fun (self, error) => bindingOf env s self error).run st).2.pool := by
  induction found generalizing st with
  | nil => exact .refl _
  | cons entry found ih =>
      obtain ⟨self, error⟩ := entry
      rw [List.mapM_cons, StateT.run_bind]
      cases error with
      | none => exact ih st
      | some e =>
          have hrest := ih { st with pool := st.pool.allocate.2 }
          exact (VarPool.Extended.allocate st.pool).trans hrest

theorem run_bindings (henv : env.Closed) (s : Subst) (found : List (Ty × Option TypeError)) :
    ∀ scheme ∈ ((found.mapM fun (self, error) => bindingOf env s self error).run st).1,
      scheme.Closed := by
  induction found generalizing st with
  | nil => exact fun scheme hmem => (List.not_mem_nil hmem).elim
  | cons entry found ih =>
      obtain ⟨self, error⟩ := entry
      rw [List.mapM_cons, StateT.run_bind]
      cases error with
      | none =>
          refine List.forall_mem_cons.2 ⟨?_, ih⟩
          change ((env.apply s).generalize _).Closed
          rw [henv.apply_eq]
          exact henv.closed_generalize _
      | some e =>
          exact List.forall_mem_cons.2
            ⟨Scheme.closed_closed _, @ih { st with pool := st.pool.allocate.2 }⟩

theorem run_infer_eq (env : Env) (members : List Member) (st : InferState) :
    (infer env members).run st =
      let names := members.map (·.name)
      let r₁ := (members.mapM fun _ => freshVar).run st
      let inner := env.insertMany (names.zip (r₁.1.map .mono))
      let r₂ := (inferBodies inner (members.zip r₁.1) .empty).run r₁.2
      let r₃ := ((r₁.1.zip r₂.1.2).mapM fun (self, error) =>
        bindingOf env r₂.1.1 self error).run r₂.2
      ({ schemes := names.zip r₃.1
         errors := (members.zip r₂.1.2).filterMap fun (m, error) =>
           error.map fun e => (m.block, e)
         types := resolve r₂.1.1 r₂.2.notes }, r₃.2) := rfl

/-- The members of a group are bound to closed schemes. -/
theorem closed_schemes (henv : env.Closed) (members : List Member) (st : InferState) :
    ∀ binding ∈ ((infer env members).run st).1.schemes, binding.2.Closed := by
  rw [run_infer_eq]
  exact fun binding hmem => run_bindings henv _ _ binding.2 (List.of_mem_zip hmem).2

/-- What a group is found to be has no variables but those that have been allocated for it. -/
theorem run_infer (henv : env.Closed) {members : List Member}
    (hlits : ∀ m ∈ members, ∀ l, m.lowered = .ok l → l.term.LitsGround) {pool : VarPool}
    (hpool : pool.Keeps old) :
    let r := (infer env members).run (ofPool pool)
    pool.Extended r.2.pool ∧
      ∀ (tag : Tag) t, r.1.types[tag]? = some t → t.Over (r.2.pool.Own old) := by
  obtain ⟨hselves, hcont₁⟩ := @run_freshVars _ (ofPool pool) _ hpool members
  rw [run_infer_eq]
  generalize (members.mapM fun _ => freshVar).run (ofPool pool) = r₁ at hselves hcont₁ ⊢
  obtain ⟨selves, st₁⟩ := r₁
  dsimp only at hselves hcont₁ ⊢
  have hpool₁ := hpool.extended hcont₁.pool
  have hmono : ∀ binding ∈ (members.map (·.name)).zip (selves.map Scheme.mono),
      ∃ t : Ty, binding.2 = .mono t ∧ t.Over (st₁.pool.Own old) := by
    intro binding hmem
    obtain ⟨t, ht, heq⟩ := List.mem_map.1 (List.of_mem_zip hmem).2
    exact ⟨t, heq.symm, hselves t ht⟩
  have hinner := (Env.Over.of_closed henv (st₁.pool.Own old)).insertMany_mono hmono
  have hbodies : ∀ body ∈ members.zip selves, ∀ l, body.1.lowered = .ok l → l.term.LitsGround :=
    fun body hmem => hlits body.1 (List.of_mem_zip hmem).1
  obtain ⟨hs, hcont₂⟩ := run_inferBodies hpool₁ hinner hbodies
    (fun body hmem => hselves body.2 (List.of_mem_zip hmem).2) .empty
  generalize (inferBodies _ (members.zip selves) .empty).run st₁ = r₂ at hs hcont₂ ⊢
  obtain ⟨⟨s, errors⟩, st₂⟩ := r₂
  dsimp only at hs hcont₂ ⊢
  have hpool₂ := hpool₁.extended hcont₂.pool
  have hext := extended_bindings env s (selves.zip errors) st₂
  refine ⟨hcont₁.pool.trans (hcont₂.pool.trans hext), fun tag t ht => ?_⟩
  have hnotes := (hcont₁.trans hcont₂).notes fun n hn => (List.not_mem_nil hn).elim
  exact (over_of_resolve hs hnotes ht).mono fun _ => hpool₂.own hext

end FunctionGroup

end Plugboard
