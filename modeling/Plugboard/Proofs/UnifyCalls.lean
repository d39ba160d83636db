import Mathlib.Data.Finset.Card
import Mathlib.Data.Prod.Lex
import Plugboard.Proofs.MostGeneral

/-!
# The calls that unification makes

A call of unification calls itself on arguments, results and children to which the substitution
found so far has been applied, and these may be far larger than the types that it was given. With
its calls left open, what one call does is a computation that ends in an outcome or asks for the
unifier of two types and goes on with the answer. The answers being unifiers, the two types that it
asks about have fewer variables than those at hand, or as many and a smaller size. So no chain of
calls goes on forever, and a run that keeps what waits for an answer on a stack comes to an end.
-/

namespace Plugboard

/-- What a call of unification has still to do, with the calls it makes left open. -/
inductive UnifyTask where
  | done (outcome : Except UnifyError Subst)
  | call (left right : Ty) (resume : Except UnifyError Subst → UnifyTask)

/-- Binds a variable unless the type contains it. -/
def unifyVar (v : String) (t : Ty) : Except UnifyError Subst :=
  if t = .var v then .ok .empty
  else if v ∈ t.vars then .error (.occurs v t)
  else .ok (.single v t)

theorem Subst.map_apply_compose (second first : Subst) (ts : List Ty) :
    ts.map (second.compose first).apply = (ts.map first.apply).map second.apply := by
  rw [List.map_map]
  exact List.map_congr_left fun t _ => apply_compose second first t

theorem Subst.map_apply_empty (ts : List Ty) : ts.map empty.apply = ts := by
  have hid : empty.apply = id := funext apply_empty
  rw [hid, List.map_id]

namespace UnifyTask

/-- A failed call ends the one that made it. -/
def onSuccess (next : Subst → UnifyTask) : Except UnifyError Subst → UnifyTask
  | .ok s => next s
  | .error e => .done (.error e)

/-- Unifies the pairs that are left, from left to right, under what has been found so far. -/
def pairs (found : Subst) : List (Ty × Ty) → UnifyTask
  | [] => .done (.ok found)
  | (t, u) :: rest =>
      .call (found.apply t) (found.apply u) (onSuccess fun s => pairs (s.compose found) rest)

/-- What a call of unification does. -/
def start : Ty → Ty → UnifyTask
  | .var v, t | t, .var v => .done (unifyVar v t)
  | .fn a r, .fn b q => .call a b (onSuccess fun first => pairs first [(r, q)])
  | .con c ts, .con d us =>
      if c ≠ d then .done (.error (.mismatch (.con c ts) (.con d us)))
      else if ts.length ≠ us.length then .done (.error (.arity (.con c ts) (.con d us)))
      else pairs .empty (ts.zip us)
  | t, u => .done (.error (.mismatch t u))

variable (f : Ty → Ty → Except UnifyError Subst)

/-- The outcome if `f` answers the calls. -/
def answer : UnifyTask → Except UnifyError Subst
  | .done outcome => outcome
  | .call a b resume => (resume (f a b)).answer

/-- The calls that are made if `f` answers them, in their order. -/
def calls : UnifyTask → List (Ty × Ty)
  | .done _ => []
  | .call a b resume => (a, b) :: (resume (f a b)).calls

variable {f}

/-- Nothing but the answers to the calls that are made has a part in the outcome. -/
theorem answer_congr {g : Ty → Ty → Except UnifyError Subst} {p : UnifyTask}
    (h : ∀ c ∈ p.calls f, g c.1 c.2 = f c.1 c.2) : p.answer g = p.answer f := by
  induction p with
  | done outcome => rfl
  | call a b resume ih =>
      rw [answer, answer, h (a, b) List.mem_cons_self]
      exact ih _ fun c hc => h c (List.mem_cons_of_mem _ hc)

/-- Two functions are unified like constructors of two arguments. -/
theorem start_fn (a r b q : Ty) :
    start (.fn a r) (.fn b q) = pairs .empty ([a, r].zip [b, q]) := by
  simp [start, pairs, Subst.compose_empty]

theorem answer_pairs (found : Subst) (ts us : List Ty) :
    (pairs found (ts.zip us)).answer unify =
      (unifyAll (ts.map found.apply) (us.map found.apply)).map (·.compose found) := by
  induction ts generalizing us found with
  | nil =>
      rw [List.map_nil, unifyAll_nil_left]
      simp [pairs, answer, Except.map, Subst.empty_compose]
  | cons t ts ih =>
      cases us with
      | nil =>
          rw [List.map_nil, unifyAll_nil_right]
          simp [pairs, answer, Except.map, Subst.empty_compose]
      | cons u us =>
          rw [List.zip_cons_cons, pairs, answer, List.map_cons, List.map_cons, unifyAll_cons]
          cases unify (found.apply t) (found.apply u) with
          | error e => rfl
          | ok s =>
              rw [onSuccess, ih]
              simp only [bind, Except.bind, Subst.map_apply_compose]
              cases unifyAll ((ts.map found.apply).map s.apply)
                ((us.map found.apply).map s.apply) with
              | error e => rfl
              | ok second => exact congrArg Except.ok (Subst.compose_assoc second s found)

theorem answer_pairs_empty (ts us : List Ty) :
    (pairs .empty (ts.zip us)).answer unify = unifyAll ts us := by
  rw [answer_pairs, Subst.map_apply_empty, Subst.map_apply_empty]
  simp only [Subst.compose_empty]
  cases unifyAll ts us <;> rfl

theorem answer_start (a b : Ty) : (start a b).answer unify = unify a b := by
  cases a with
  | var v => exact (unify_var_left v b).symm
  | con c ts =>
      cases b with
      | var v => exact (unify_var_right v _ rfl).symm
      | con d us =>
          rw [unify_con, start]
          split
          next => rfl
          next =>
            split
            next => rfl
            next => exact answer_pairs_empty ts us
      | fn b q => exact (unify_con_fn c ts b q).symm
  | fn a r =>
      cases b with
      | var v => exact (unify_var_right v _ rfl).symm
      | con d us => exact (unify_fn_con d us a r).symm
      | fn b q => rw [unify_fn, start_fn, answer_pairs_empty]

end UnifyTask

/-- How much there is to unify: the number of different variables, and then the size. -/
def extent (a b : Ty) : ℕ ×ₗ ℕ :=
  toLex ((a.vars ++ b.vars).toFinset.card, a.size + b.size)

/-- The extent of two lists taken as a whole. -/
def extentAll (ts us : List Ty) : ℕ ×ₗ ℕ :=
  toLex ((Ty.varsAll ts ++ Ty.varsAll us).toFinset.card, Ty.sizeAll ts + Ty.sizeAll us)

theorem distinct_eq_card (vs : List String) : distinct vs = vs.toFinset.card := by
  induction vs with
  | nil => rfl
  | cons v vs ih =>
      by_cases hv : v ∈ vs
      · simp [distinct, hv, ih]
      · simp [distinct, hv, ih, Finset.card_insert_of_notMem]

theorem extent_le_extentAll_cons (t u : Ty) (ts us : List Ty) :
    extent t u ≤ extentAll (t :: ts) (u :: us) := by
  refine Prod.Lex.toLex_mono ⟨?_, ?_⟩
  · exact Finset.card_le_card fun v hv =>
      List.mem_toFinset.2 (append_subset_varsAll_cons t u ts us (List.mem_toFinset.1 hv))
  · simp only [Ty.sizeAll]
    omega

/-- A unifier of the first pair binds variables for good, or else there is one pair less. -/
theorem extentAll_lt_cons {s : Subst} {t u : Ty} (h : s.Eliminates (t.vars ++ u.vars))
    (ts us : List Ty) :
    extentAll (ts.map s.apply) (us.map s.apply) < extentAll (t :: ts) (u :: us) := by
  have hlex := @rest_lt s t u ts us h
  simp only [distinct_eq_card] at hlex
  exact hlex

theorem extentAll_lt_con (c d : String) (ts us : List Ty) :
    extentAll ts us < extent (.con c ts) (.con d us) := by
  refine Prod.Lex.toLex_lt_toLex.2 (.inr ⟨rfl, ?_⟩)
  simp only [Ty.size]
  omega

theorem extentAll_lt_fn (a r b q : Ty) :
    extentAll [a, r] [b, q] < extent (.fn a r) (.fn b q) := by
  refine Prod.Lex.toLex_lt_toLex.2 (.inr ⟨?_, ?_⟩)
  · simp [Ty.varsAll, Ty.vars]
  · simp only [Ty.size, Ty.sizeAll]
    omega

namespace UnifyTask

/-- No pair is larger than the lists were when its turn came. -/
theorem extent_le_of_mem_calls_pairs {found : Subst} {ts us : List Ty} {c : Ty × Ty}
    (h : c ∈ (pairs found (ts.zip us)).calls unify) :
    extent c.1 c.2 ≤ extentAll (ts.map found.apply) (us.map found.apply) := by
  induction ts generalizing us found with
  | nil => simp [pairs, calls] at h
  | cons t ts ih =>
      cases us with
      | nil => simp [pairs, calls] at h
      | cons u us =>
          rw [List.zip_cons_cons, pairs, calls, List.mem_cons] at h
          rcases h with rfl | h
          · exact extent_le_extentAll_cons ..
          · cases hfirst : unify (found.apply t) (found.apply u) with
            | error e => simp [hfirst, onSuccess, calls] at h
            | ok s =>
                rw [hfirst, onSuccess] at h
                calc extent c.1 c.2
                    ≤ extentAll (ts.map (s.compose found).apply)
                        (us.map (s.compose found).apply) := ih h
                  _ = extentAll ((ts.map found.apply).map s.apply)
                        ((us.map found.apply).map s.apply) := by
                      rw [Subst.map_apply_compose, Subst.map_apply_compose]
                  _ ≤ _ := (extentAll_lt_cons (unify_eliminates hfirst) ..).le

theorem extent_lt_of_mem_calls_pairs {ts us : List Ty} {a b : Ty} {c : Ty × Ty}
    (h : c ∈ (pairs .empty (ts.zip us)).calls unify) (hlt : extentAll ts us < extent a b) :
    extent c.1 c.2 < extent a b := by
  have hle := extent_le_of_mem_calls_pairs h
  rw [Subst.map_apply_empty, Subst.map_apply_empty] at hle
  exact hle.trans_lt hlt

/-- Every call has less to unify than the one that makes it. -/
theorem extent_lt_of_mem_calls {a b : Ty} {c : Ty × Ty} (h : c ∈ (start a b).calls unify) :
    extent c.1 c.2 < extent a b := by
  cases a with
  | var v => cases h
  | con d ts =>
      cases b with
      | var v => cases h
      | con e us =>
          rw [start] at h
          split at h
          next => cases h
          next =>
            split at h
            next => cases h
            next => exact extent_lt_of_mem_calls_pairs h (extentAll_lt_con ..)
      | fn b q => cases h
  | fn a r =>
      cases b with
      | var v => cases h
      | con e us => cases h
      | fn b q =>
          rw [start_fn] at h
          exact extent_lt_of_mem_calls_pairs h (extentAll_lt_fn ..)

/-- The first problem is one of those that the second calls for. -/
def CalledBy (inner outer : Ty × Ty) : Prop :=
  inner ∈ (start outer.1 outer.2).calls unify

theorem wellFounded_calledBy : WellFounded CalledBy :=
  Subrelation.wf extent_lt_of_mem_calls
    (InvImage.wf (fun p : Ty × Ty => extent p.1 p.2) wellFounded_lt)

theorem answers_iff (f : Ty → Ty → Except UnifyError Subst) :
    (∀ a b, (start a b).answer f = f a b) ↔ f = unify := by
  constructor
  · intro h
    have hagree : ∀ p : Ty × Ty, f p.1 p.2 = unify p.1 p.2 := by
      intro p
      induction p using wellFounded_calledBy.induction with
      | _ p ih => rw [← h, answer_congr ih, answer_start]
    exact funext fun a => funext fun b => hagree (a, b)
  · rintro rfl a b
    exact answer_start a b

end UnifyTask

/-- A run of unification: what is worked on, and what waits for its outcome, the innermost call
first. -/
structure UnifyRun where
  current : UnifyTask
  waiting : List (Except UnifyError Subst → UnifyTask)

namespace UnifyRun

/-- A call is entered, or an outcome goes to what waits for it. A run that has its outcome rests. -/
def step : UnifyRun → UnifyRun
  | ⟨.call a b resume, waiting⟩ => ⟨.start a b, resume :: waiting⟩
  | ⟨.done outcome, resume :: waiting⟩ => ⟨resume outcome, waiting⟩
  | ⟨.done outcome, []⟩ => ⟨.done outcome, []⟩

/-- Finitely many steps lead from one state of a run to another. -/
def Reaches (r r' : UnifyRun) : Prop :=
  ∃ n, step^[n] r = r'

namespace Reaches

variable {r r' r'' : UnifyRun}

theorem refl (r : UnifyRun) : r.Reaches r := ⟨0, rfl⟩

theorem single (r : UnifyRun) : r.Reaches r.step := ⟨1, rfl⟩

theorem trans (h : r.Reaches r') (h' : r'.Reaches r'') : r.Reaches r'' := by
  obtain ⟨n, rfl⟩ := h
  obtain ⟨m, rfl⟩ := h'
  exact ⟨m + n, Function.iterate_add_apply step m n r⟩

end Reaches

/-- A computation comes to its outcome if all calls that it makes return. -/
theorem reaches_done {p : UnifyTask}
    (h : ∀ c ∈ p.calls unify, ∀ resume waiting,
      Reaches ⟨.call c.1 c.2 resume, waiting⟩ ⟨resume (unify c.1 c.2), waiting⟩)
    (waiting : List (Except UnifyError Subst → UnifyTask)) :
    Reaches ⟨p, waiting⟩ ⟨.done (p.answer unify), waiting⟩ := by
  induction p with
  | done outcome => exact .refl _
  | call a b resume ih =>
      have hcall := h (a, b) List.mem_cons_self resume waiting
      exact hcall.trans (ih _ fun c hc => h c (List.mem_cons_of_mem _ hc))

theorem returns (a b : Ty) (resume : Except UnifyError Subst → UnifyTask)
    (waiting : List (Except UnifyError Subst → UnifyTask)) :
    Reaches ⟨.call a b resume, waiting⟩ ⟨resume (unify a b), waiting⟩ := by
  suffices ∀ p : Ty × Ty, ∀ resume waiting,
      Reaches ⟨.call p.1 p.2 resume, waiting⟩ ⟨resume (unify p.1 p.2), waiting⟩ from
    this (a, b) resume waiting
  intro p
  induction p using UnifyTask.wellFounded_calledBy.induction with
  | _ p ih =>
      intro resume waiting
      have hdone := reaches_done ih (resume :: waiting)
      rw [UnifyTask.answer_start] at hdone
      exact (Reaches.single _).trans (hdone.trans (.single _))

end UnifyRun

/-- Unification ends on all inputs. It is the one function that answers the calls that it makes.
Every call that it makes is for two types with fewer variables, or with as many and a smaller size,
so that calls within calls come to an end; and each call, whatever waits for it, returns after
finitely many steps. -/
theorem unify_terminates :
    (∀ f : Ty → Ty → Except UnifyError Subst,
      (∀ a b, (UnifyTask.start a b).answer f = f a b) ↔ f = unify) ∧
    (∀ outer inner : Ty × Ty, UnifyTask.CalledBy inner outer →
      extent inner.1 inner.2 < extent outer.1 outer.2) ∧
    WellFounded UnifyTask.CalledBy ∧
    ∀ (a b : Ty) (resume : Except UnifyError Subst → UnifyTask)
      (waiting : List (Except UnifyError Subst → UnifyTask)),
      UnifyRun.Reaches ⟨.call a b resume, waiting⟩ ⟨resume (unify a b), waiting⟩ :=
  ⟨UnifyTask.answers_iff, fun _ _ => UnifyTask.extent_lt_of_mem_calls,
    UnifyTask.wellFounded_calledBy, UnifyRun.returns⟩

/-- What is found for the first pair makes the second one larger than all that was given, but there
is one variable less in it. -/
example :
    let big := Ty.pair (.pair (.var "B") (.var "B")) (.pair (.var "B") (.var "B"))
    let left := Ty.pair (.var "A") (.pair (.var "A") (.var "A"))
    let right := Ty.pair big (.var "C")
    extent left right = toLex (3, 14) ∧
      (UnifyTask.start left right).calls unify = [(.var "A", big), (.pair big big, .var "C")] ∧
      extent (.pair big big) (.var "C") = toLex (2, 16) := by
  refine ⟨by decide, by cbv, by decide⟩

end Plugboard
