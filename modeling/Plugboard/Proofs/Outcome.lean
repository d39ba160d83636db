import Mathlib.Tactic.Choose
import Plugboard.Workspace.Command

/-!
# Outcomes of actions

An action on a state may fail and then keeps what it has done so far. `Ends` says where it may
end, apart for success and failure; it is computed through the parts of an action, so that a
fact about an operation follows from those about the operations it is made of.
-/

namespace Plugboard

section

variable {ε σ α β : Type}

/-- Run from `s`, the action succeeds as `Q` says, or it fails in a state where `E` holds. -/
def Ends (x : ExceptT ε (StateM σ) α) (s : σ) (Q : α → σ → Prop) (E : σ → Prop) : Prop :=
  match x.run s with
  | (.ok a, s') => Q a s'
  | (.error _, s') => E s'

theorem Ends.imp {x : ExceptT ε (StateM σ) α} {s : σ} {Q Q' : α → σ → Prop} {E E' : σ → Prop}
    (h : Ends x s Q E) (hQ : ∀ a s', Q a s' → Q' a s') (hE : ∀ s', E s' → E' s') :
    Ends x s Q' E' := by
  unfold Ends at h ⊢
  generalize x.run s = out at h ⊢
  rcases out with ⟨e | a, s'⟩
  · exact hE s' h
  · exact hQ _ s' h

theorem Ends.and {x : ExceptT ε (StateM σ) α} {s : σ} {Q Q' : α → σ → Prop} {E E' : σ → Prop}
    (h : Ends x s Q E) (h' : Ends x s Q' E') :
    Ends x s (fun a s' => Q a s' ∧ Q' a s') fun s' => E s' ∧ E' s' := by
  unfold Ends at h h' ⊢
  generalize x.run s = out at h h' ⊢
  rcases out with ⟨e | a, s'⟩ <;> exact ⟨h, h'⟩

/-- Where an action ends, whichever way it does. -/
theorem Ends.state {x : ExceptT ε (StateM σ) α} {s : σ} {P : σ → Prop}
    (h : Ends x s (fun _ => P) P) : P (x.run s).2 := by
  unfold Ends at h
  generalize x.run s = out at h ⊢
  rcases out with ⟨e | a, s'⟩ <;> exact h

theorem Ends.of_run_eq {x : ExceptT ε (StateM σ) α} {s s' : σ} {a : α} {Q : α → σ → Prop}
    {E : σ → Prop} (h : Ends x s Q E) (hrun : x.run s = (.ok a, s')) : Q a s' := by
  rwa [Ends, hrun] at h

theorem Ends.of_isOk {x : ExceptT ε (StateM σ) α} {s : σ} {Q : α → σ → Prop} {E : σ → Prop}
    (h : Ends x s Q E) (hok : (x.run s).1.isOk = true) : ∃ a, Q a (x.run s).2 := by
  unfold Ends at h
  generalize x.run s = out at h hok ⊢
  rcases out with ⟨e | a, s'⟩
  · cases hok
  · exact ⟨a, h⟩

/-- An action that never fails has an answer. -/
theorem Ends.exists_run {x : ExceptT ε (StateM σ) α} {s : σ} {Q : α → σ → Prop}
    (h : Ends x s Q fun _ => False) : ∃ a s', x.run s = (.ok a, s') ∧ Q a s' := by
  unfold Ends at h
  rcases hrun : x.run s with ⟨r, s'⟩
  rw [hrun] at h
  cases r with
  | ok a => exact ⟨a, s', rfl, h⟩
  | error e => exact h.elim

@[simp]
theorem ends_pure {a : α} {s : σ} {Q : α → σ → Prop} {E : σ → Prop} :
    Ends (pure a : ExceptT ε (StateM σ) α) s Q E ↔ Q a s := Iff.rfl

@[simp]
theorem ends_throw {e : ε} {s : σ} {Q : α → σ → Prop} {E : σ → Prop} :
    Ends (throw e : ExceptT ε (StateM σ) α) s Q E ↔ E s := Iff.rfl

@[simp]
theorem ends_bind {x : ExceptT ε (StateM σ) α} {f : α → ExceptT ε (StateM σ) β} {s : σ}
    {Q : β → σ → Prop} {E : σ → Prop} :
    Ends (x >>= f) s Q E ↔ Ends x s (fun a s' => Ends (f a) s' Q E) E := by
  change (match (ExceptT.bindCont f (x.run s).1 : StateM σ _) (x.run s).2 with
    | (.ok a, s') => Q a s'
    | (.error _, s') => E s') ↔ _
  unfold Ends
  rcases x.run s with ⟨r, s'⟩
  cases r <;> exact Iff.rfl

/-- What comes after an action that succeeds. -/
theorem run_bind {x : ExceptT ε (StateM σ) α} {f : α → ExceptT ε (StateM σ) β} {s s' : σ} {a : α}
    (h : x.run s = (.ok a, s')) : (x >>= f).run s = (f a).run s' := by
  change (ExceptT.bindCont f (x.run s).1 : StateM σ _) (x.run s).2 = _
  rw [h]
  rfl

theorem run_bind_eq_ok {x : ExceptT ε (StateM σ) α} {f : α → ExceptT ε (StateM σ) β} {s s' : σ}
    {b : β} : (x >>= f).run s = (.ok b, s') ↔
      ∃ a s₁, x.run s = (.ok a, s₁) ∧ (f a).run s₁ = (.ok b, s') := by
  refine ⟨fun h => ?_, fun ⟨a, s₁, hx, hf⟩ => (run_bind hx).trans hf⟩
  rcases hx : x.run s with ⟨e | a, s₁⟩
  · change (ExceptT.bindCont f (x.run s).1 : StateM σ _) (x.run s).2 = _ at h
    rw [hx] at h
    cases h
  · exact ⟨a, s₁, rfl, (run_bind hx).symm.trans h⟩

@[simp]
theorem ends_map {x : ExceptT ε (StateM σ) α} {f : α → β} {s : σ} {Q : β → σ → Prop}
    {E : σ → Prop} : Ends (f <$> x) s Q E ↔ Ends x s (fun a s' => Q (f a) s') E := by
  rw [← bind_pure_comp, ends_bind]
  exact Iff.rfl

@[simp]
theorem ends_get {s : σ} {Q : σ → σ → Prop} {E : σ → Prop} :
    Ends (get : ExceptT ε (StateM σ) σ) s Q E ↔ Q s s := Iff.rfl

@[simp]
theorem ends_modify {f : σ → σ} {s : σ} {Q : PUnit → σ → Prop} {E : σ → Prop} :
    Ends (modify f : ExceptT ε (StateM σ) PUnit) s Q E ↔ Q ⟨⟩ (f s) := Iff.rfl

@[simp]
theorem ends_modifyGet {f : σ → α × σ} {s : σ} {Q : α → σ → Prop} {E : σ → Prop} :
    Ends (modifyGet f : ExceptT ε (StateM σ) α) s Q E ↔ Q (f s).1 (f s).2 := Iff.rfl

/-- A loop whose invariant says what is left to do. -/
theorem Ends.mapM {f : α → ExceptT ε (StateM σ) β} {I : List α → σ → Prop} {E : σ → Prop}
    (hstep : ∀ a as s, I (a :: as) s → Ends (f a) s (fun _ => I as) E) {xs : List α} {s : σ}
    (h : I xs s) : Ends (xs.mapM f) s (fun _ => I []) E := by
  induction xs generalizing s with
  | nil => exact h
  | cons a as ih =>
      rw [List.mapM_cons, ends_bind]
      refine (hstep a as s h).imp (fun b s' hs' => ?_) fun _ => id
      rw [ends_bind]
      exact (ih hs').imp (fun _ _ => id) fun _ => id

theorem Ends.forM {f : α → ExceptT ε (StateM σ) PUnit} {I : List α → σ → Prop} {E : σ → Prop}
    (hstep : ∀ a as s, I (a :: as) s → Ends (f a) s (fun _ => I as) E) {xs : List α} {s : σ}
    (h : I xs s) : Ends (xs.forM f) s (fun _ => I []) E := by
  induction xs generalizing s with
  | nil => exact h
  | cons a as ih =>
      change Ends (f a >>= fun _ => as.forM f) s _ _
      rw [ends_bind]
      exact (hstep a as s h).imp (fun _ _ hs' => ih hs') fun _ => id

/-- A loop of questions that can all be answered. -/
theorem Ends.mapM_eq {f : α → ExceptT ε (StateM σ) β} {r : α → β} {s : σ} {E : σ → Prop}
    {xs : List α} (h : ∀ a ∈ xs, Ends (f a) s (fun b s' => b = r a ∧ s' = s) E) :
    Ends (xs.mapM f) s (fun bs s' => bs = xs.map r ∧ s' = s) E := by
  induction xs with
  | nil => exact ⟨rfl, rfl⟩
  | cons a as ih =>
      rw [List.forall_mem_cons] at h
      rw [List.mapM_cons, ends_bind]
      refine h.1.imp (fun b s' hb => ?_) fun _ => id
      obtain ⟨rfl, rfl⟩ := hb
      rw [ends_bind]
      exact (ih h.2).imp (fun bs _ hbs => ⟨congrArg (r a :: ·) hbs.1, hbs.2⟩) fun _ => id

/-- A loop each of whose answers is as `R` says. -/
theorem Ends.mapM_all {f : α → ExceptT ε (StateM σ) β} {I E : σ → Prop} {R : β → Prop}
    {xs : List α} (hstep : ∀ a ∈ xs, ∀ s, I s → Ends (f a) s (fun b s' => R b ∧ I s') E) {s : σ}
    (h : I s) : Ends (xs.mapM f) s (fun bs s' => (∀ b ∈ bs, R b) ∧ I s') E := by
  induction xs generalizing s with
  | nil => exact ⟨fun b hb => (List.not_mem_nil hb).elim, h⟩
  | cons a as ih =>
      rw [List.forall_mem_cons] at hstep
      rw [List.mapM_cons, ends_bind]
      refine (hstep.1 s h).imp (fun b s' ⟨hb, hs'⟩ => ?_) fun _ => id
      rw [ends_bind]
      exact (ih hstep.2 hs').imp
        (fun bs _ ⟨hbs, hs''⟩ => ⟨List.forall_mem_cons.2 ⟨hb, hbs⟩, hs''⟩) fun _ => id

/-- A loop that keeps an invariant of what it has gathered. -/
theorem Ends.foldlM {f : β → α → ExceptT ε (StateM σ) β} {I : β → σ → Prop} {E : σ → Prop}
    {xs : List α} (hstep : ∀ a ∈ xs, ∀ b s, I b s → Ends (f b a) s I E) {b : β} {s : σ}
    (h : I b s) : Ends (xs.foldlM f b) s I E := by
  induction xs generalizing b s with
  | nil => exact h
  | cons a as ih =>
      rw [List.forall_mem_cons] at hstep
      rw [List.foldlM_cons, ends_bind]
      exact (hstep.1 b s h).imp (fun _ _ hs' => ih hstep.2 hs') fun _ => id

theorem bind_eq_ok {x : Except ε α} {f : α → Except ε β} {b : β} :
    x >>= f = .ok b ↔ ∃ a, x = .ok a ∧ f a = .ok b := by
  cases x <;> simp [bind, Except.bind]

theorem map_eq_ok {x : Except ε α} {f : α → β} {b : β} :
    x.map f = .ok b ↔ ∃ a, x = .ok a ∧ f a = b := by
  cases x <;> simp [Except.map]

theorem exists_mapM_eq {f : α → Except ε β} {xs : List α} (h : ∀ a ∈ xs, ∃ b, f a = .ok b) :
    ∃ bs, xs.mapM f = .ok bs := by
  induction xs with
  | nil => exact ⟨[], rfl⟩
  | cons a xs ih =>
      rw [List.forall_mem_cons] at h
      obtain ⟨b, hb⟩ := h.1
      obtain ⟨bs, hbs⟩ := ih h.2
      exact ⟨b :: bs, by rw [List.mapM_cons, hb, hbs]; rfl⟩

/-- Every answer of a loop is the answer for one of the elements. -/
theorem exists_of_mem_mapM {f : α → Except ε β} {xs : List α} {ys : List β}
    (h : xs.mapM f = .ok ys) {y : β} (hy : y ∈ ys) : ∃ x ∈ xs, f x = .ok y := by
  induction xs generalizing ys with
  | nil =>
      cases h
      exact (List.not_mem_nil hy).elim
  | cons x xs ih =>
      rw [List.mapM_cons, bind_eq_ok] at h
      obtain ⟨y', hy', h⟩ := h
      obtain ⟨ys', hys', h⟩ := bind_eq_ok.1 h
      cases h
      rcases List.mem_cons.1 hy with rfl | hmem
      · exact ⟨x, List.mem_cons_self, hy'⟩
      · obtain ⟨x', hx', hfx'⟩ := ih hys' hmem
        exact ⟨x', List.mem_cons_of_mem x hx', hfx'⟩

/-- All parts that are made up one after the other are answers to one question. -/
theorem exists_map_of_mapM [Nonempty β] (f : α → Except ε β) :
    ∃ part : α → β, ∀ {xs : List α} {ys : List β}, xs.mapM f = .ok ys →
      ys = xs.map part ∧ ∀ x ∈ xs, f x = .ok (part x) := by
  have hanswer : ∀ x, ∃ y, ∀ z, f x = .ok z → z = y := fun x => by
    cases f x with
    | error e => exact ⟨Classical.choice inferInstance, fun z hz => by cases hz⟩
    | ok y => exact ⟨y, fun z hz => (Except.ok.inj hz).symm⟩
  choose part hpart using hanswer
  refine ⟨part, fun {xs ys} h => ?_⟩
  induction xs generalizing ys with
  | nil =>
      cases h
      exact ⟨rfl, fun x hx => (List.not_mem_nil hx).elim⟩
  | cons x xs ih =>
      rw [List.mapM_cons] at h
      obtain ⟨y, hy, h⟩ := bind_eq_ok.1 h
      obtain ⟨ys', hys, h⟩ := bind_eq_ok.1 h
      cases h
      obtain ⟨rfl, hrest⟩ := ih hys
      obtain rfl := hpart x y hy
      exact ⟨rfl, List.forall_mem_cons.2 ⟨hy, hrest⟩⟩

theorem mapM_eq_ok [Nonempty β] {f : α → Except ε β} {xs : List α} {ys : List β} :
    xs.mapM f = .ok ys ↔ ∃ part : α → β, ys = xs.map part ∧ ∀ x ∈ xs, f x = .ok (part x) := by
  constructor
  · obtain ⟨part, hpart⟩ := exists_map_of_mapM f
    exact fun h => ⟨part, hpart h⟩
  · rintro ⟨part, rfl, hpart⟩
    induction xs with
    | nil => rfl
    | cons x xs ih =>
        rw [List.forall_mem_cons] at hpart
        rw [List.mapM_cons, hpart.1, ih hpart.2]
        rfl

theorem foldlM_invariant {f : β → α → Except ε β} {I : β → Prop} {xs : List α} {b b' : β}
    (h : xs.foldlM f b = .ok b') (hstep : ∀ a ∈ xs, ∀ b b', I b → f b a = .ok b' → I b')
    (hb : I b) : I b' := by
  induction xs generalizing b with
  | nil =>
      cases h
      exact hb
  | cons a as ih =>
      rw [List.forall_mem_cons] at hstep
      rw [List.foldlM_cons, bind_eq_ok] at h
      obtain ⟨b₁, hb₁, h⟩ := h
      exact ih h hstep.2 (hstep.1 b b₁ hb hb₁)

/-- However the action ends, `P` still holds if it did before. -/
def Preserves (P : σ → Prop) (x : ExceptT ε (StateM σ) α) : Prop :=
  ∀ s, P s → Ends x s (fun _ => P) P

namespace Preserves

variable {P : σ → Prop} {x : ExceptT ε (StateM σ) α} {f : α → ExceptT ε (StateM σ) β}

theorem pure (a : α) : Preserves P (Pure.pure a : ExceptT ε (StateM σ) α) := fun _ => id

theorem throw (e : ε) : Preserves P (throw e : ExceptT ε (StateM σ) α) := fun _ => id

theorem bind (hx : Preserves P x) (hf : ∀ a, Preserves P (f a)) : Preserves P (x >>= f) :=
  fun s hs => ends_bind.2 ((hx s hs).imp (fun a s' hs' => hf a s' hs') fun _ => id)

theorem map {g : α → β} (hx : Preserves P x) : Preserves P (g <$> x) :=
  fun s hs => ends_map.2 (hx s hs)

theorem get : Preserves P (get : ExceptT ε (StateM σ) σ) := fun _ => id

theorem modify {g : σ → σ} (h : ∀ s, P s → P (g s)) :
    Preserves P (modify g : ExceptT ε (StateM σ) PUnit) := h

theorem modifyGet {g : σ → α × σ} (h : ∀ s, P s → P (g s).2) :
    Preserves P (modifyGet g : ExceptT ε (StateM σ) α) := h

theorem mapM {xs : List α} (h : ∀ a ∈ xs, Preserves P (f a)) : Preserves P (xs.mapM f) := by
  induction xs with
  | nil => exact pure []
  | cons a xs ih =>
      rw [List.mapM_cons]
      refine bind (h a List.mem_cons_self) fun b => ?_
      exact bind (ih fun a' ha' => h a' (List.mem_cons_of_mem a ha')) fun _ => pure _

theorem forM {f : α → ExceptT ε (StateM σ) PUnit} {xs : List α}
    (h : ∀ a ∈ xs, Preserves P (f a)) : Preserves P (xs.forM f) := by
  induction xs with
  | nil => exact pure _
  | cons a xs ih =>
      exact bind (h a List.mem_cons_self) fun _ =>
        ih fun a' ha' => h a' (List.mem_cons_of_mem a ha')

theorem foldlM {g : β → α → ExceptT ε (StateM σ) β} {xs : List α} (b : β)
    (h : ∀ b, ∀ a ∈ xs, Preserves P (g b a)) : Preserves P (xs.foldlM g b) := by
  induction xs generalizing b with
  | nil => exact pure b
  | cons a xs ih =>
      rw [List.foldlM_cons]
      exact bind (h b a List.mem_cons_self) fun b' =>
        ih b' fun b a' ha' => h b a' (List.mem_cons_of_mem a ha')

end Preserves

/-- Wherever `P` holds the action succeeds, and `P` still holds. -/
def Completes (P : σ → Prop) (x : ExceptT ε (StateM σ) α) : Prop :=
  ∀ s, P s → Ends x s (fun _ => P) fun _ => False

namespace Completes

variable {P : σ → Prop} {x : ExceptT ε (StateM σ) α} {f : α → ExceptT ε (StateM σ) β}

theorem pure (a : α) : Completes P (Pure.pure a : ExceptT ε (StateM σ) α) := fun _ => id

theorem bind (hx : Completes P x) (hf : ∀ a, Completes P (f a)) : Completes P (x >>= f) :=
  fun s hs => ends_bind.2 ((hx s hs).imp (fun a s' hs' => hf a s' hs') fun _ => id)

theorem get : Completes P (get : ExceptT ε (StateM σ) σ) := fun _ => id

theorem mapM {xs : List α} (h : ∀ a ∈ xs, Completes P (f a)) : Completes P (xs.mapM f) := by
  induction xs with
  | nil => exact pure []
  | cons a xs ih =>
      rw [List.mapM_cons]
      refine bind (h a List.mem_cons_self) fun b => ?_
      exact bind (ih fun a' ha' => h a' (List.mem_cons_of_mem a ha')) fun _ => pure _

theorem forM {f : α → ExceptT ε (StateM σ) PUnit} {xs : List α}
    (h : ∀ a ∈ xs, Completes P (f a)) : Completes P (xs.forM f) := by
  induction xs with
  | nil => exact pure _
  | cons a xs ih =>
      exact bind (h a List.mem_cons_self) fun _ =>
        ih fun a' ha' => h a' (List.mem_cons_of_mem a ha')

theorem foldlM {g : β → α → ExceptT ε (StateM σ) β} {xs : List α} (b : β)
    (h : ∀ b, ∀ a ∈ xs, Completes P (g b a)) : Completes P (xs.foldlM g b) := by
  induction xs generalizing b with
  | nil => exact pure b
  | cons a xs ih =>
      rw [List.foldlM_cons]
      exact bind (h b a List.mem_cons_self) fun b' =>
        ih b' fun b a' ha' => h b a' (List.mem_cons_of_mem a ha')

/-- An action without an error that preserves `P` completes. -/
theorem of_preserves (hx : Preserves P x)
    (hends : ∀ s, P s → Ends x s (fun _ _ => True) fun _ => False) : Completes P x :=
  fun s hs => ((hx s hs).and (hends s hs)).imp (fun _ _ => And.left) fun _ => And.right

theorem and {Q : σ → Prop} (h : Completes P x) (hQ : Preserves Q x) :
    Completes (fun s => P s ∧ Q s) x :=
  fun s hs => ((h s hs.1).and (hQ s hs.2)).imp (fun _ _ => id) fun _ => And.left

end Completes

/-- Wherever `P` holds it still does if the action succeeds. -/
def Carries (P : σ → Prop) (x : ExceptT ε (StateM σ) α) : Prop :=
  ∀ s, P s → Ends x s (fun _ => P) fun _ => True

namespace Carries

variable {P : σ → Prop} {x : ExceptT ε (StateM σ) α} {f : α → ExceptT ε (StateM σ) β}

theorem pure (a : α) : Carries P (Pure.pure a : ExceptT ε (StateM σ) α) := fun _ => id

theorem throw (e : ε) : Carries P (throw e : ExceptT ε (StateM σ) α) := fun _ _ => trivial

theorem bind (hx : Carries P x) (hf : ∀ a, Carries P (f a)) : Carries P (x >>= f) :=
  fun s hs => ends_bind.2 ((hx s hs).imp (fun a s' hs' => hf a s' hs') fun _ => id)

theorem map {g : α → β} (hx : Carries P x) : Carries P (g <$> x) :=
  fun s hs => ends_map.2 (hx s hs)

theorem get : Carries P (get : ExceptT ε (StateM σ) σ) := fun _ => id

theorem modify {g : σ → σ} (h : ∀ s, P s → P (g s)) :
    Carries P (modify g : ExceptT ε (StateM σ) PUnit) := h

theorem modifyGet {g : σ → α × σ} (h : ∀ s, P s → P (g s).2) :
    Carries P (modifyGet g : ExceptT ε (StateM σ) α) := h

theorem of_preserves (h : Preserves P x) : Carries P x :=
  fun s hs => (h s hs).imp (fun _ _ => id) fun _ _ => trivial

theorem mapM {xs : List α} (h : ∀ a ∈ xs, Carries P (f a)) : Carries P (xs.mapM f) := by
  induction xs with
  | nil => exact pure []
  | cons a xs ih =>
      rw [List.forall_mem_cons] at h
      rw [List.mapM_cons]
      exact bind h.1 fun b => bind (ih h.2) fun _ => pure _

theorem forM {f : α → ExceptT ε (StateM σ) PUnit} {xs : List α}
    (h : ∀ a ∈ xs, Carries P (f a)) : Carries P (xs.forM f) := by
  induction xs with
  | nil => exact pure _
  | cons a xs ih =>
      rw [List.forall_mem_cons] at h
      exact bind h.1 fun _ => ih h.2

theorem foldlM {g : β → α → ExceptT ε (StateM σ) β} {xs : List α} (b : β)
    (h : ∀ b, ∀ a ∈ xs, Carries P (g b a)) : Carries P (xs.foldlM g b) :=
  fun _ hs => Ends.foldlM (I := fun _ => P) (fun a ha b s hs => h b a ha s hs) hs

end Carries

end

namespace GraphM

variable {α : Type}

@[simp]
theorem ends_ask {f : Graph → Except Fault α} {g : Graph} {Q : α → Graph → Prop}
    {E : Graph → Prop} :
    Ends (ask f) g Q E ↔ match f g with | .ok a => Q a g | .error _ => E g := by
  rw [ask, ends_bind, ends_get]
  cases f g <;> exact Iff.rfl

@[simp]
theorem ends_act {f : Graph → α × Graph} {g : Graph} {Q : α → Graph → Prop}
    {E : Graph → Prop} : Ends (act f) g Q E ↔ Q (f g).1 (f g).2 := Iff.rfl

theorem preserves_ask {P : Graph → Prop} (f : Graph → Except Fault α) :
    Preserves P (ask f) := by
  intro g hg
  rw [ends_ask]
  cases f g <;> exact hg

end GraphM

namespace WorkspaceM

variable {α : Type}

@[simp]
theorem ends_onGraph {canvas : Canvas} {action : GraphM α} {ws : Workspace}
    {Q : α → Workspace → Prop} {E : Workspace → Prop} :
    Ends (onGraph canvas action) ws Q E ↔
      Ends action (ws.graph canvas) (fun a g => Q a (ws.setGraph canvas g))
        fun g => E (ws.setGraph canvas g) := by
  rw [onGraph, ends_bind, ends_get]
  unfold Ends
  generalize action.run (ws.graph canvas) = out
  rcases out with ⟨e | a, g⟩ <;> exact Iff.rfl

@[simp]
theorem ends_onMain {action : GraphM α} {ws : Workspace} {Q : α → Workspace → Prop}
    {E : Workspace → Prop} :
    Ends (onMain action) ws Q E ↔
      Ends action ws.main (fun a g => Q a { ws with main := g })
        fun g => E { ws with main := g } :=
  ends_onGraph

@[simp]
theorem ends_query {f : Workspace → Except Fault α} {ws : Workspace}
    {Q : α → Workspace → Prop} {E : Workspace → Prop} :
    Ends (query f) ws Q E ↔ match f ws with | .ok a => Q a ws | .error _ => E ws := by
  rw [query, ends_bind, ends_get]
  cases f ws <;> exact Iff.rfl

theorem run_query {f : Workspace → Except Fault α} {ws : Workspace} {a : α} (h : f ws = .ok a) :
    (query f).run ws = (.ok a, ws) := by
  have hends : Ends (query f) ws (fun a' ws' => a' = a ∧ ws' = ws) fun _ => False := by
    rw [ends_query, h]
    exact ⟨rfl, rfl⟩
  obtain ⟨_, _, hrun, rfl, rfl⟩ := hends.exists_run
  exact hrun

@[simp]
theorem ends_ask {f : Graph → Except Fault α} {ws : Workspace} {Q : α → Workspace → Prop}
    {E : Workspace → Prop} :
    Ends (ask f) ws Q E ↔ match f ws.main with | .ok a => Q a ws | .error _ => E ws :=
  ends_query

@[simp]
theorem ends_onPool {f : VarPool → α × VarPool} {ws : Workspace} {Q : α → Workspace → Prop}
    {E : Workspace → Prop} :
    Ends (onPool f) ws Q E ↔ Q (f ws.pool).1 { ws with pool := (f ws.pool).2 } := Iff.rfl

@[simp]
theorem ends_requestRender {canvas : Canvas} {blocks : BlockSet} {ws : Workspace}
    {Q : PUnit → Workspace → Prop} {E : Workspace → Prop} :
    Ends (requestRender canvas blocks) ws Q E ↔ Q ⟨⟩ (ws.requestRender canvas blocks) := Iff.rfl

@[simp]
theorem ends_requestSweep {ws : Workspace} {Q : PUnit → Workspace → Prop}
    {E : Workspace → Prop} : Ends requestSweep ws Q E ↔ Q ⟨⟩ ws.requestSweep := Iff.rfl

@[simp]
theorem ends_runInference {action : StateM InferState α} {ws : Workspace}
    {Q : α × List (Tag × Ty) → Workspace → Prop} {E : Workspace → Prop} :
    Ends (runInference action) ws Q E ↔
      Q ((action.run (InferM.ofPool ws.pool)).1, (action.run (InferM.ofPool ws.pool)).2.notes)
        { ws with pool := (action.run (InferM.ofPool ws.pool)).2.pool } := Iff.rfl

@[simp]
theorem ends_malformed {b : BlockId} {reason : String} {ws : Workspace}
    {Q : α → Workspace → Prop} {E : Workspace → Prop} :
    Ends (malformed b reason) ws Q E ↔ E ws := Iff.rfl

end WorkspaceM

end Plugboard
