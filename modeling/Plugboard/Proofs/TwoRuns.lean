import Mathlib.Data.List.Forall2
import Mathlib.Order.CompleteBooleanAlgebra
import Mathlib.Order.CompletePartialOrder
import Plugboard.Proofs.Outcome

/-!
# Actions that run in step

Two runs are in step if they start in states that belong together, and then both succeed with
answers that belong together or both fail with errors that do, in states that belong together
again. What belongs together depends on a stage, and on the way a stage only gives way to later
ones.
-/

namespace Plugboard

variable {W σ σ' τ ε ε' α α' β β' : Type} [Preorder W]

/-- Both are answers that go together as `R` says, or both are errors that go together as `E`
says. -/
inductive Outcomes (R : α → α' → Prop) (E : ε → ε' → Prop) : Except ε α → Except ε' α' → Prop
  | ok {a : α} {a' : α'} (h : R a a') : Outcomes R E (.ok a) (.ok a')
  | error {e : ε} {e' : ε'} (h : E e e') : Outcomes R E (.error e) (.error e')

namespace Outcomes

variable {R Q : α → α' → Prop} {E F : ε → ε' → Prop} {x : Except ε α} {x' : Except ε' α'}

theorem imp (h : Outcomes R E x x') (hR : ∀ a a', R a a' → Q a a') (hE : ∀ e e', E e e' → F e e') :
    Outcomes Q F x x' := by
  cases h with
  | ok h => exact .ok (hR _ _ h)
  | error h => exact .error (hE _ _ h)

theorem of_ok (h : Outcomes R E x x') {a : α} {a' : α'} (hx : x = .ok a) (hx' : x' = .ok a') :
    R a a' := by
  subst hx hx'
  cases h with
  | ok h => exact h

theorem exists_error (h : Outcomes R E x x') {e : ε} (hx : x = .error e) :
    ∃ e', x' = .error e' ∧ E e e' := by
  subst hx
  cases h with
  | error h => exact ⟨_, rfl, h⟩

theorem bind {f : α → Except ε β} {f' : α' → Except ε' β'} {Q : β → β' → Prop}
    (h : Outcomes R E x x') (hf : ∀ a a', R a a' → Outcomes Q E (f a) (f' a')) :
    Outcomes Q E (x >>= f) (x' >>= f') := by
  cases h with
  | ok h => exact hf _ _ h
  | error h => exact .error h

theorem map {f : α → β} {f' : α' → β'} {Q : β → β' → Prop} (h : Outcomes R E x x')
    (hf : ∀ a a', R a a' → Q (f a) (f' a')) : Outcomes Q E (f <$> x) (f' <$> x') := by
  cases h with
  | ok h => exact .ok (hf _ _ h)
  | error h => exact .error h

theorem foldlM {f : β → α → Except ε β} {f' : β' → α' → Except ε' β'} {A : α → α' → Prop}
    {Q : β → β' → Prop} {xs : List α} {xs' : List α'} (hxs : List.Forall₂ A xs xs')
    (hf : ∀ a a', A a a' → ∀ b b', Q b b' → Outcomes Q E (f b a) (f' b' a')) {b : β} {b' : β'}
    (hb : Q b b') : Outcomes Q E (xs.foldlM f b) (xs'.foldlM f' b') := by
  induction hxs generalizing b b' with
  | nil => exact .ok hb
  | cons ha _ ih =>
      rw [List.foldlM_cons, List.foldlM_cons]
      exact (hf _ _ ha _ _ hb).bind fun _ _ hb => ih hb

theorem eq_iff {x x' : Except ε α} : Outcomes Eq Eq x x' ↔ x = x' := by
  constructor
  · intro h
    cases h with
    | ok h => rw [h]
    | error h => rw [h]
  · rintro rfl
    cases x with
    | ok a => exact .ok rfl
    | error e => exact .error rfl

end Outcomes

theorem forall₂_zip {R : α → α' → Prop} {Q : β → β' → Prop} {xs : List α} {xs' : List α'}
    {ys : List β} {ys' : List β'} (hxs : List.Forall₂ R xs xs') (hys : List.Forall₂ Q ys ys') :
    List.Forall₂ (fun a a' => R a.1 a'.1 ∧ Q a.2 a'.2) (xs.zip ys) (xs'.zip ys') := by
  induction hxs generalizing ys ys' with
  | nil => exact .nil
  | cons hx _ ih =>
      cases hys with
      | nil => exact .nil
      | cons hy hys => exact .cons ⟨hx, hy⟩ (ih hys)

/-- Once two answers belong together they always will. -/
def Lasting (R : W → α → α' → Prop) : Prop := ∀ {v w a a'}, v ≤ w → R v a a' → R w a a'

theorem Lasting.forall₂ {R : W → α → α' → Prop} (h : Lasting R) :
    Lasting fun w => List.Forall₂ (R w) :=
  fun hle => List.Forall₂.imp fun _ _ => h hle

/-- Run from states that `S` pairs, the actions give what `R` pairs and end in paired states. -/
def InStep (S : W → σ → σ' → Prop) (w : W) (x : StateM σ α) (x' : StateM σ' α')
    (R : W → α → α' → Prop) : Prop :=
  ∀ s s', S w s s' → ∃ v, w ≤ v ∧ R v (x.run s).1 (x'.run s').1 ∧ S v (x.run s).2 (x'.run s').2

namespace InStep

variable {S : W → σ → σ' → Prop} {w : W} {x : StateM σ α} {x' : StateM σ' α'}
  {R Q : W → α → α' → Prop}

theorem pure {a : α} {a' : α'} (h : R w a a') : InStep S w (Pure.pure a) (Pure.pure a') R :=
  fun _ _ hs => ⟨w, le_rfl, h, hs⟩

theorem bind {f : α → StateM σ β} {f' : α' → StateM σ' β'} {Q : W → β → β' → Prop}
    (hx : InStep S w x x' R) (hf : ∀ v a a', w ≤ v → R v a a' → InStep S v (f a) (f' a') Q) :
    InStep S w (x >>= f) (x' >>= f') Q := by
  intro s s' hs
  obtain ⟨v, hv, ha, hs⟩ := hx s s' hs
  obtain ⟨u, hu, hb, hs⟩ := hf v _ _ hv ha _ _ hs
  exact ⟨u, hv.trans hu, hb, hs⟩

theorem imp (hx : InStep S w x x' R) (h : ∀ v a a', w ≤ v → R v a a' → Q v a a') :
    InStep S w x x' Q := by
  intro s s' hs
  obtain ⟨v, hv, ha, hs⟩ := hx s s' hs
  exact ⟨v, hv, h v _ _ hv ha, hs⟩

theorem get : InStep S w get get S := fun _ _ hs => ⟨w, le_rfl, hs, hs⟩

/-- A loop over two lists that belong together, element by element. -/
theorem mapM {f : α → StateM σ β} {f' : α' → StateM σ' β'} {A : α → α' → Prop}
    {Q : W → β → β' → Prop} {xs : List α} {xs' : List α'} (hQ : Lasting Q)
    (hxs : List.Forall₂ A xs xs')
    (hf : ∀ v a a', w ≤ v → A a a' → InStep S v (f a) (f' a') Q) :
    InStep S w (xs.mapM f) (xs'.mapM f') fun v => List.Forall₂ (Q v) := by
  induction hxs generalizing w with
  | nil => exact pure .nil
  | cons ha _ ih =>
      rw [List.mapM_cons, List.mapM_cons]
      refine (hf w _ _ le_rfl ha).bind fun v b b' hv hb => ?_
      refine (ih fun u a a' hu => hf u a a' (hv.trans hu)).bind fun u bs bs' hu hbs => ?_
      exact pure (.cons (hQ hu hb) hbs)

end InStep

/-- Run from states that `S` pairs, the actions give answers that `R` pairs or errors that `E`
pairs, and end in paired states. -/
def Parallel (S : W → σ → σ' → Prop) (E : W → ε → ε' → Prop) (w : W)
    (x : ExceptT ε (StateM σ) α) (x' : ExceptT ε' (StateM σ') α') (R : W → α → α' → Prop) : Prop :=
  InStep S w x.run x'.run fun v => Outcomes (R v) (E v)

namespace Parallel

variable {S : W → σ → σ' → Prop} {E : W → ε → ε' → Prop} {w : W}
  {x : ExceptT ε (StateM σ) α} {x' : ExceptT ε' (StateM σ') α'} {R Q : W → α → α' → Prop}

/-- Where one side succeeds so does the other. -/
theorem exists_run (h : Parallel S E w x x' R) {s t : σ} {s' : σ'} (hs : S w s s') {a : α}
    (hrun : x.run s = (.ok a, t)) :
    ∃ v a' t', w ≤ v ∧ x'.run s' = (.ok a', t') ∧ R v a a' ∧ S v t t' := by
  obtain ⟨v, hv, hout, ht⟩ := h s s' hs
  rcases hrun' : x'.run s' with ⟨r, t'⟩
  rw [show StateT.run (ExceptT.run x) s = _ from hrun,
    show StateT.run (ExceptT.run x') s' = _ from hrun'] at hout ht
  cases hout with
  | ok ha => exact ⟨v, _, t', hv, rfl, ha, ht⟩

theorem pure {a : α} {a' : α'} (h : R w a a') : Parallel S E w (Pure.pure a) (Pure.pure a') R :=
  InStep.pure (.ok h)

theorem throw {e : ε} {e' : ε'} (h : E w e e') :
    Parallel S E w (throw e : ExceptT ε (StateM σ) α) (throw e' : ExceptT ε' (StateM σ') α') R :=
  InStep.pure (.error h)

theorem bind {f : α → ExceptT ε (StateM σ) β} {f' : α' → ExceptT ε' (StateM σ') β'}
    {Q : W → β → β' → Prop} (hx : Parallel S E w x x' R)
    (hf : ∀ v a a', w ≤ v → R v a a' → Parallel S E v (f a) (f' a') Q) :
    Parallel S E w (x >>= f) (x' >>= f') Q := by
  change InStep S w (x.run >>= ExceptT.bindCont f) (x'.run >>= ExceptT.bindCont f') _
  refine InStep.bind hx fun v r r' hv hr => ?_
  cases hr with
  | ok ha => exact hf v _ _ hv ha
  | error he => exact InStep.pure (.error he)

theorem imp (hx : Parallel S E w x x' R) (h : ∀ v a a', w ≤ v → R v a a' → Q v a a') :
    Parallel S E w x x' Q :=
  InStep.imp hx fun v _ _ hv ho => ho.imp (fun a a' => h v a a' hv) fun _ _ => id

theorem map {f : α → β} {f' : α' → β'} {Q : W → β → β' → Prop} (hx : Parallel S E w x x' R)
    (h : ∀ v a a', w ≤ v → R v a a' → Q v (f a) (f' a')) :
    Parallel S E w (f <$> x) (f' <$> x') Q := by
  rw [← bind_pure_comp, ← bind_pure_comp]
  exact hx.bind fun v a a' hv ha => pure (h v a a' hv ha)

theorem get : Parallel S E w (get : ExceptT ε (StateM σ) σ) (get : ExceptT ε' (StateM σ') σ') S :=
  fun _ _ hs => ⟨w, le_rfl, .ok hs, hs⟩

/-- An action that cannot fail. -/
theorem modifyGet {f : σ → α × σ} {f' : σ' → α' × σ'}
    (h : ∀ s s', S w s s' → ∃ v, w ≤ v ∧ R v (f s).1 (f' s').1 ∧ S v (f s).2 (f' s').2) :
    Parallel S E w (modifyGet f : ExceptT ε (StateM σ) α)
      (modifyGet f' : ExceptT ε' (StateM σ') α') R := by
  intro s s' hs
  obtain ⟨v, hv, ha, hs⟩ := h s s' hs
  exact ⟨v, hv, .ok ha, hs⟩

theorem modify {f : σ → σ} {f' : σ' → σ'} {R : W → PUnit → PUnit → Prop}
    (h : ∀ s s', S w s s' → S w (f s) (f' s')) (hR : R w ⟨⟩ ⟨⟩) :
    Parallel S E w (modify f : ExceptT ε (StateM σ) PUnit)
      (modify f' : ExceptT ε' (StateM σ') PUnit) R :=
  modifyGet fun s s' hs => ⟨w, le_rfl, hR, h s s' hs⟩

theorem mapM {f : α → ExceptT ε (StateM σ) β} {f' : α' → ExceptT ε' (StateM σ') β'}
    {A : α → α' → Prop} {Q : W → β → β' → Prop} {xs : List α} {xs' : List α'} (hQ : Lasting Q)
    (hxs : List.Forall₂ A xs xs')
    (hf : ∀ v a a', w ≤ v → A a a' → Parallel S E v (f a) (f' a') Q) :
    Parallel S E w (xs.mapM f) (xs'.mapM f') fun v => List.Forall₂ (Q v) := by
  induction hxs generalizing w with
  | nil => exact pure .nil
  | cons ha _ ih =>
      rw [List.mapM_cons, List.mapM_cons]
      refine (hf w _ _ le_rfl ha).bind fun v b b' hv hb => ?_
      refine (ih fun u a a' hu => hf u a a' (hv.trans hu)).bind fun u bs bs' hu hbs => ?_
      exact pure (.cons (hQ hu hb) hbs)

theorem forM {f : α → ExceptT ε (StateM σ) PUnit} {f' : α' → ExceptT ε' (StateM σ') PUnit}
    {A : α → α' → Prop} {xs : List α} {xs' : List α'} (hxs : List.Forall₂ A xs xs')
    (hf : ∀ v a a', w ≤ v → A a a' → Parallel S E v (f a) (f' a') fun _ => Eq) :
    Parallel S E w (xs.forM f) (xs'.forM f') fun _ => Eq := by
  induction hxs generalizing w with
  | nil => exact pure rfl
  | cons ha _ ih =>
      exact (hf w _ _ le_rfl ha).bind fun v _ _ hv _ =>
        ih fun u a a' hu => hf u a a' (hv.trans hu)

theorem foldlM {f : β → α → ExceptT ε (StateM σ) β} {f' : β' → α' → ExceptT ε' (StateM σ') β'}
    {A : α → α' → Prop} {Q : W → β → β' → Prop} {xs : List α} {xs' : List α'}
    (hxs : List.Forall₂ A xs xs')
    (hf : ∀ v a a' b b', w ≤ v → A a a' → Q v b b' → Parallel S E v (f b a) (f' b' a') Q)
    {b : β} {b' : β'} (hb : Q w b b') :
    Parallel S E w (xs.foldlM f b) (xs'.foldlM f' b') Q := by
  induction hxs generalizing w b b' with
  | nil => exact pure hb
  | cons ha _ ih =>
      rw [List.foldlM_cons, List.foldlM_cons]
      refine (hf w _ _ b b' le_rfl ha hb).bind fun v c c' hv hc => ?_
      exact ih (fun u a a' b b' hu => hf u a a' b b' (hv.trans hu)) hc

/-- The same loop on both sides, of which only the errors count. -/
theorem mapM_eq {f : α → ExceptT ε (StateM σ) β} {f' : α → ExceptT ε' (StateM σ') β}
    {xs : List α} (hf : ∀ v a, w ≤ v → Parallel S E v (f a) (f' a) fun _ => Eq) :
    Parallel S E w (xs.mapM f) (xs.mapM f') fun _ => Eq := by
  refine (mapM (A := Eq) (Q := fun _ => Eq) (fun _ h => h) (List.forall₂_refl xs) ?_).imp
    fun _ _ _ _ h => List.forall₂_eq_eq_eq ▸ h
  rintro v a _ hv rfl
  exact hf v a hv

theorem forM_eq {f : α → ExceptT ε (StateM σ) PUnit} {f' : α → ExceptT ε' (StateM σ') PUnit}
    {xs : List α} (hf : ∀ v a, w ≤ v → Parallel S E v (f a) (f' a) fun _ => Eq) :
    Parallel S E w (xs.forM f) (xs.forM f') fun _ => Eq := by
  refine forM (A := Eq) (List.forall₂_refl xs) ?_
  rintro v a _ hv rfl
  exact hf v a hv

end Parallel

end Plugboard
