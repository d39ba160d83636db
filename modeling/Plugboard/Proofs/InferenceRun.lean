import Plugboard.Inference
import Plugboard.Proofs.SchemeInstance

/-!
# Runs of inference

A successful run of inference, as a relation between the pool before, the answer and the pool
after. Notes are left out: no run reads them. A run succeeds in the sense of the monad exactly
where this relation holds, so that everything about successes can go by induction on it.
-/

namespace Plugboard

namespace InferM

variable {α β : Type}

theorem run_pure (a : α) (st : InferState) : (pure a : InferM α).run st = (.ok a, st) := rfl

theorem run_bind (x : InferM α) (f : α → InferM β) (st : InferState) :
    (x >>= f).run st =
      match x.run st with
      | (.ok a, st') => (f a).run st'
      | (.error e, st') => (.error e, st') := by
  change (ExceptT.bindCont f (x.run st).1 : StateM InferState _) (x.run st).2 = _
  rcases x.run st with ⟨r, st'⟩
  cases r <;> rfl

theorem run_bind_of_ok {x : InferM α} {f : α → InferM β} {st st' : InferState} {a : α}
    (h : x.run st = (.ok a, st')) : (x >>= f).run st = (f a).run st' := by
  rw [run_bind, h]

theorem run_bind_eq_ok {x : InferM α} {f : α → InferM β} {st st' : InferState} {b : β} :
    (x >>= f).run st = (.ok b, st') ↔
      ∃ a mid, x.run st = (.ok a, mid) ∧ (f a).run mid = (.ok b, st') := by
  rw [run_bind]
  rcases x.run st with ⟨r, mid⟩
  cases r with
  | error e =>
      constructor
      · intro h
        cases h
      · rintro ⟨a, mid', heq, -⟩
        cases heq
  | ok a =>
      constructor
      · intro h
        exact ⟨a, mid, rfl, h⟩
      · rintro ⟨a', mid', heq, h⟩
        obtain ⟨ha, rfl⟩ := Prod.mk.inj heq
        obtain rfl := Except.ok.inj ha
        exact h

theorem run_onPool (f : VarPool → α × VarPool) (st : InferState) :
    (onPool f).run st = (.ok (f st.pool).1, { st with pool := (f st.pool).2 }) := rfl

theorem run_freshVar (st : InferState) :
    freshVar.run st = (.ok (.var st.pool.allocate.1), { st with pool := st.pool.allocate.2 }) :=
  rfl

/-- The notes after a node, the newest first. -/
def noted (tag : Option Tag) (t : Ty) (notes : List (Tag × Ty)) : List (Tag × Ty) :=
  tag.toList.map (·, t) ++ notes

theorem run_note_eq (tag : Option Tag) (t : Ty) (st : InferState) :
    (note tag t).run st = (.ok (), { st with notes := noted tag t st.notes }) := by
  cases tag <;> rfl

theorem noted_append (tag : Option Tag) (t : Ty) (notes rest : List (Tag × Ty)) :
    noted tag t (notes ++ rest) = noted tag t notes ++ rest :=
  (List.append_assoc ..).symm

theorem run_unifyAt_eq_ok {tag : Option Tag} {a b : Ty} {st st' : InferState} {s : Subst} :
    (unifyAt tag a b).run st = (.ok s, st') ↔ unify a b = .ok s ∧ st = st' := by
  unfold unifyAt
  cases unify a b with
  | error cause =>
      constructor
      · intro h
        cases h
      · rintro ⟨h, -⟩
        cases h
  | ok s' =>
      constructor
      · intro h
        cases h
        exact ⟨rfl, rfl⟩
      · rintro ⟨h, rfl⟩
        cases h
        rfl

end InferM

/-- The environment for the body of a local definition, once the definition has been inferred
to have type `t` under `s`. -/
def Env.define (env : Env) (name : String) (s : Subst) (t : Ty) : Env :=
  let outer := (env.erase name).apply s
  outer.insert name (outer.generalize t)

namespace Term

open InferM

/-- `Infers env e pool s t pool'`: inference of `e` in `env` answers `s` and `t`, and leads
from `pool` to `pool'`. -/
inductive Infers : Env → Term → VarPool → Subst → Ty → VarPool → Prop
  | var {env : Env} {name : String} {scheme : Scheme} {pool : VarPool} (tag : Option Tag)
      (hlookup : env.lookup name = some scheme) :
      Infers env (.var name tag) pool .empty (scheme.instantiate pool).1
        (scheme.instantiate pool).2
  | lit {env : Env} {pool : VarPool} (t : Ty) (tag : Option Tag) :
      Infers env (.lit t tag) pool .empty t pool
  | lam {env : Env} {param : String} {body : Term} {pool pool' : VarPool} {s : Subst} {t : Ty}
      (tag : Option Tag)
      (hbody : Infers (env.insert param (.mono (.var pool.allocate.1))) body pool.allocate.2
        s t pool') :
      Infers env (.lam param body tag) pool s (.fn (s.image pool.allocate.1) t) pool'
  | app {env : Env} {func arg : Term} {pool pool₁ pool₂ : VarPool} {s₁ s₂ s₃ : Subst}
      {t₁ t₂ : Ty} (tag : Option Tag) (hfunc : Infers env func pool s₁ t₁ pool₁)
      (harg : Infers (env.apply s₁) arg pool₁ s₂ t₂ pool₂)
      (hunify : unify (s₂.apply t₁) (.fn t₂ (.var pool₂.allocate.1)) = .ok s₃) :
      Infers env (.app func arg tag) pool (s₃.compose (s₂.compose s₁))
        (s₃.image pool₂.allocate.1) pool₂.allocate.2
  | letIn {env : Env} {name : String} {bound body : Term} {pool pool₁ pool₂ : VarPool}
      {s₁ s₂ : Subst} {t₁ t₂ : Ty} (tag : Option Tag)
      (hbound : Infers env bound pool s₁ t₁ pool₁)
      (hbody : Infers (env.define name s₁ t₁) body pool₁ s₂ t₂ pool₂) :
      Infers env (.letIn name bound body tag) pool (s₂.compose s₁) t₂ pool₂

section

variable {env : Env} {func arg bound body : Term} {name param : String} {tag : Option Tag}
  {st st' : InferState} {s : Subst} {t u : Ty}

/-- The end of every run: the type of the node is noted. -/
theorem run_note_pure {α : Type} {a b : α} :
    (note tag t >>= fun _ => pure a).run st = (.ok b, st') ↔
      b = a ∧ st' = { st with notes := noted tag t st.notes } := by
  rw [run_bind_of_ok (run_note_eq tag t st), run_pure, Prod.mk.injEq, Except.ok.injEq, eq_comm,
    @eq_comm _ _ st']

theorem run_infer_var : ((var name tag).infer env).run st = (.ok (s, t), st') ↔
    ∃ scheme, env.lookup name = some scheme ∧ s = .empty ∧ t = (scheme.instantiate st.pool).1 ∧
      st' = ⟨(scheme.instantiate st.pool).2, noted tag t st.notes⟩ := by
  rw [infer]
  cases hlookup : env.lookup name with
  | none =>
      refine iff_of_false (fun h => ?_) (by simp)
      cases h
  | some scheme =>
      have hinst := run_onPool scheme.instantiate st
      refine (iff_of_eq (congrArg (· = _) (run_bind_of_ok hinst))).trans (run_note_pure.trans ?_)
      rw [Prod.mk.injEq, and_assoc]
      constructor
      · rintro ⟨rfl, rfl, rfl⟩
        exact ⟨scheme, rfl, rfl, rfl, rfl⟩
      · rintro ⟨_, heq, rfl, rfl, rfl⟩
        obtain rfl := Option.some.inj heq
        exact ⟨rfl, rfl, rfl⟩

theorem run_infer_lit : ((lit u tag).infer env).run st = (.ok (s, t), st') ↔
    s = .empty ∧ t = u ∧ st' = { st with notes := noted tag u st.notes } := by
  rw [infer, run_note_pure, Prod.mk.injEq, and_assoc]

theorem run_infer_lam : ((lam param body tag).infer env).run st = (.ok (s, t), st') ↔
    ∃ u mid, (body.infer (env.insert param (.mono (.var st.pool.allocate.1)))).run
        { st with pool := st.pool.allocate.2 } = (.ok (s, u), mid) ∧
      t = .fn (s.image st.pool.allocate.1) u ∧
      st' = { mid with notes := noted tag t mid.notes } := by
  rw [infer, run_bind_of_ok (run_freshVar st), run_bind_eq_ok]
  constructor
  · rintro ⟨⟨s', u⟩, mid, hbody, h⟩
    obtain ⟨heq, rfl⟩ := run_note_pure.1 h
    obtain ⟨rfl, rfl⟩ := Prod.mk.inj heq
    exact ⟨u, mid, hbody, rfl, rfl⟩
  · rintro ⟨u, mid, hbody, rfl, rfl⟩
    exact ⟨(s, u), mid, hbody, run_note_pure.2 ⟨rfl, rfl⟩⟩

theorem run_infer_app : ((app func arg tag).infer env).run st = (.ok (s, t), st') ↔
    ∃ s₁ t₁ mid₁ s₂ t₂ mid₂ s₃, (func.infer env).run st = (.ok (s₁, t₁), mid₁) ∧
      (arg.infer (env.apply s₁)).run mid₁ = (.ok (s₂, t₂), mid₂) ∧
      unify (s₂.apply t₁) (.fn t₂ (.var mid₂.pool.allocate.1)) = .ok s₃ ∧
      s = s₃.compose (s₂.compose s₁) ∧ t = s₃.image mid₂.pool.allocate.1 ∧
      st' = ⟨mid₂.pool.allocate.2, noted tag t mid₂.notes⟩ := by
  rw [infer]
  constructor
  · intro h
    obtain ⟨⟨s₁, t₁⟩, mid₁, hfunc, h⟩ := run_bind_eq_ok.1 h
    obtain ⟨⟨s₂, t₂⟩, mid₂, harg, h⟩ := run_bind_eq_ok.1 h
    have h := (run_bind_of_ok (run_freshVar mid₂)).symm.trans h
    obtain ⟨s₃, mid₃, hsolve, h⟩ := run_bind_eq_ok.1 h
    obtain ⟨hunify, rfl⟩ := run_unifyAt_eq_ok.1 hsolve
    obtain ⟨heq, rfl⟩ := run_note_pure.1 h
    obtain ⟨rfl, rfl⟩ := Prod.mk.inj heq
    exact ⟨s₁, t₁, mid₁, s₂, t₂, mid₂, s₃, hfunc, harg, hunify, rfl, rfl, rfl⟩
  · rintro ⟨s₁, t₁, mid₁, s₂, t₂, mid₂, s₃, hfunc, harg, hunify, rfl, rfl, rfl⟩
    rw [run_bind_of_ok hfunc, run_bind_of_ok harg, run_bind_of_ok (run_freshVar mid₂),
      run_bind_of_ok (run_unifyAt_eq_ok.2 ⟨hunify, rfl⟩)]
    exact run_note_pure.2 ⟨rfl, rfl⟩

theorem run_infer_letIn : ((letIn name bound body tag).infer env).run st = (.ok (s, t), st') ↔
    ∃ s₁ t₁ mid₁ s₂ mid₂, (bound.infer env).run st = (.ok (s₁, t₁), mid₁) ∧
      (body.infer (env.define name s₁ t₁)).run mid₁ = (.ok (s₂, t), mid₂) ∧
      s = s₂.compose s₁ ∧ st' = { mid₂ with notes := noted tag t mid₂.notes } := by
  rw [infer]
  constructor
  · intro h
    obtain ⟨⟨s₁, t₁⟩, mid₁, hbound, h⟩ := run_bind_eq_ok.1 h
    obtain ⟨⟨s₂, t₂⟩, mid₂, hbody, h⟩ := run_bind_eq_ok.1 h
    obtain ⟨heq, rfl⟩ := run_note_pure.1 h
    obtain ⟨rfl, rfl⟩ := Prod.mk.inj heq
    exact ⟨s₁, t₁, mid₁, s₂, mid₂, hbound, hbody, rfl, rfl⟩
  · rintro ⟨s₁, t₁, mid₁, s₂, mid₂, hbound, hbody, rfl, rfl⟩
    rw [run_bind_of_ok hbound]
    exact (run_bind_of_ok hbody).trans (run_note_pure.2 ⟨rfl, rfl⟩)

end

theorem infers_of_run {env : Env} {e : Term} {st st' : InferState} {s : Subst} {t : Ty}
    (h : (e.infer env).run st = (.ok (s, t), st')) : Infers env e st.pool s t st'.pool := by
  induction e generalizing env st st' s t with
  | var name tag =>
      obtain ⟨scheme, hlookup, rfl, rfl, rfl⟩ := run_infer_var.1 h
      exact .var tag hlookup
  | lit u tag =>
      obtain ⟨rfl, rfl, rfl⟩ := run_infer_lit.1 h
      exact .lit _ tag
  | lam param body tag ih =>
      obtain ⟨u, mid, hbody, rfl, rfl⟩ := run_infer_lam.1 h
      exact .lam tag (ih hbody)
  | app func arg tag ihf iha =>
      obtain ⟨s₁, t₁, mid₁, s₂, t₂, mid₂, s₃, hfunc, harg, hunify, rfl, rfl, rfl⟩ :=
        run_infer_app.1 h
      exact .app tag (ihf hfunc) (iha harg) hunify
  | letIn name bound body tag ihb ihe =>
      obtain ⟨s₁, t₁, mid₁, s₂, mid₂, hbound, hbody, rfl, rfl⟩ := run_infer_letIn.1 h
      have hinfers := ihe hbody
      exact .letIn tag (ihb hbound) hinfers

theorem Infers.exists_run {env : Env} {e : Term} {pool pool' : VarPool} {s : Subst} {t : Ty}
    (h : Infers env e pool s t pool') (notes : List (Tag × Ty)) :
    ∃ notes', (e.infer env).run ⟨pool, notes⟩ = (.ok (s, t), ⟨pool', notes'⟩) := by
  induction h generalizing notes with
  | var tag hlookup => exact ⟨_, run_infer_var.2 ⟨_, hlookup, rfl, rfl, rfl⟩⟩
  | lit t tag => exact ⟨_, run_infer_lit.2 ⟨rfl, rfl, rfl⟩⟩
  | lam tag hbody ih =>
      obtain ⟨notes', hrun⟩ := ih notes
      exact ⟨_, run_infer_lam.2 ⟨_, _, hrun, rfl, rfl⟩⟩
  | app tag hfunc harg hunify ihf iha =>
      obtain ⟨notes₁, hrun₁⟩ := ihf notes
      obtain ⟨notes₂, hrun₂⟩ := iha notes₁
      exact ⟨_, run_infer_app.2 ⟨_, _, _, _, _, _, _, hrun₁, hrun₂, hunify, rfl, rfl, rfl⟩⟩
  | letIn tag hbound hbody ihb ihe =>
      obtain ⟨notes₁, hrun₁⟩ := ihb notes
      obtain ⟨notes₂, hrun₂⟩ := ihe notes₁
      exact ⟨_, run_infer_letIn.2 ⟨_, _, _, _, _, hrun₁, hrun₂, rfl, rfl⟩⟩

/-- A run has one answer only. -/
theorem Infers.unique {env : Env} {e : Term} {pool pool₁ pool₂ : VarPool} {s₁ s₂ : Subst}
    {t₁ t₂ : Ty} (h₁ : Infers env e pool s₁ t₁ pool₁) (h₂ : Infers env e pool s₂ t₂ pool₂) :
    s₁ = s₂ ∧ t₁ = t₂ ∧ pool₁ = pool₂ := by
  obtain ⟨notes₁, hrun₁⟩ := h₁.exists_run []
  obtain ⟨notes₂, hrun₂⟩ := h₂.exists_run []
  obtain ⟨houtcome, hstate⟩ := Prod.mk.inj (hrun₁.symm.trans hrun₂)
  obtain ⟨hs, ht⟩ := Prod.mk.inj (Except.ok.inj houtcome)
  exact ⟨hs, ht, congrArg InferState.pool hstate⟩

end Term

end Plugboard
