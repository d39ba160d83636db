import Plugboard.Graph.Layout
import Plugboard.Proofs.PairedInference

/-!
# Layouts do not depend on names

Blocks of one kind that are laid out from paired pools get the same sockets and parameters, with
paired types.
-/

namespace Plugboard

namespace Pairing

open Layout

variable {p : Pairing}

/-- The pools are those of the pairing. -/
structure Pools (p : Pairing) (pool pool' : VarPool) : Prop where
  left : pool = p.left
  right : pool' = p.right

/-- The same names, with paired types. -/
abbrev Entries (p : Pairing) : List (String × Ty) → List (String × Ty) → Prop :=
  List.Forall₂ fun e e' => e.1 = e'.1 ∧ p.Types e.2 e'.2

theorem lasting_entries : Lasting Entries :=
  fun hle => List.Forall₂.imp fun _ _ h => ⟨h.1, lasting_types hle h.2⟩

/-- The same sockets and type parameters, with paired types. -/
structure Layouts (p : Pairing) (l l' : Layout) : Prop where
  output : Option.Rel p.Types l.output l'.output
  inputs : p.Entries l.inputs l'.inputs
  params : Related p.Types l.params l'.params

theorem inStep_modifyGet {α α' : Type} {f : VarPool → α × VarPool} {f' : VarPool → α' × VarPool}
    {R : Pairing → α → α' → Prop}
    (h : ∃ q, p ≤ q ∧ q.left = (f p.left).2 ∧ q.right = (f' p.right).2 ∧
      R q (f p.left).1 (f' p.right).1) :
    InStep Pools p (modifyGet f) (modifyGet f') R := by
  rintro _ _ ⟨rfl, rfl⟩
  obtain ⟨q, hle, hleft, hright, hR⟩ := h
  exact ⟨q, hle, hR, hleft.symm, hright.symm⟩

theorem inStep_fresh : InStep Pools p fresh fresh Types := inStep_modifyGet p.exists_fresh

theorem inStep_instantiate {scheme scheme' : Scheme} (h : p.Schemes scheme scheme') :
    InStep Pools p (instantiate scheme) (instantiate scheme') Types :=
  inStep_modifyGet h.instantiate

theorem inStep_freshParams (names : List String) :
    InStep Pools p (freshParams names) (freshParams names) Entries := by
  refine .mapM (A := Eq) (fun hle h => ⟨h.1, lasting_types hle h.2⟩) (List.forall₂_refl names) ?_
  rintro q name _ _ rfl
  exact inStep_fresh.bind fun _ _ _ _ ht => .pure ⟨rfl, ht⟩

theorem entries_arguments {ts ts' : List Ty} (h : List.Forall₂ p.Types ts ts') :
    p.Entries (arguments ts) (arguments ts') := by
  rw [arguments, arguments]
  generalize 0 = start
  induction h generalizing start with
  | nil => exact .nil
  | cons ht _ ih => exact .cons ⟨rfl, ht⟩ (ih (start + 1))

/-- Sockets of the same type. -/
theorem entries_map {α : Type} {t t' : Ty} (ht : p.Types t t') (slot : α → String) (xs : List α) :
    p.Entries (xs.map fun x => (slot x, t)) (xs.map fun x => (slot x, t')) :=
  List.forall₂_map_left_iff.2 <| List.forall₂_map_right_iff.2 <|
    List.forall₂_same.2 fun _ _ => ⟨rfl, ht⟩

theorem inStep_ofTy {t t' : Ty} (ht : p.Types t t') (arity : Nat) :
    InStep Pools p (ofTy t arity) (ofTy t' arity) Layouts := by
  obtain ⟨hargs, hresult⟩ := ht.uncurry arity
  rw [ofTy, ofTy]
  generalize t.uncurry arity = parts at hargs hresult
  generalize t'.uncurry arity = parts' at hargs hresult
  obtain ⟨args, result⟩ := parts
  obtain ⟨args', result'⟩ := parts'
  dsimp only at hargs hresult ⊢
  rw [← hargs.length_eq]
  split
  · have hmore : InStep Pools p ((List.replicate (arity - args.length) fresh).mapM id)
        ((List.replicate (arity - args.length) fresh).mapM id) fun q => List.Forall₂ q.Types :=
      .mapM (A := fun x x' => x = fresh ∧ x' = fresh) lasting_types
        (List.forall₂_same.2 fun x hx => ⟨List.eq_of_mem_replicate hx, List.eq_of_mem_replicate hx⟩)
        (by
          rintro q _ _ _ ⟨rfl, rfl⟩
          exact inStep_fresh)
    refine hmore.bind fun q more more' hq hmore => ?_
    refine inStep_fresh.bind fun r u u' hr hu => .pure ⟨.some hu, ?_, .empty⟩
    exact entries_arguments (List.rel_append (lasting_types.forall₂ (hq.trans hr) hargs)
      (lasting_types.forall₂ hr hmore))
  · exact .pure ⟨.some hresult, entries_arguments hargs, .empty⟩

theorem inStep_operator {scheme? scheme?' : Option Scheme}
    (h : Option.Rel p.Schemes scheme? scheme?') (arity : Nat) :
    InStep Pools p (operator scheme? arity) (operator scheme?' arity) Layouts := by
  cases h with
  | none => exact inStep_fresh.bind fun _ _ _ _ ht => inStep_ofTy ht arity
  | some h => exact (inStep_instantiate h).bind fun _ _ _ _ ht => inStep_ofTy ht arity

theorem inStep_use : InStep Pools p use use Layouts :=
  inStep_fresh.bind fun _ _ _ _ ht => .pure ⟨.some ht, .nil, .empty⟩

theorem inStep_lambda : InStep Pools p lambda lambda Layouts := by
  refine inStep_fresh.bind fun q t t' _ ht => inStep_fresh.bind fun r u u' hr hu => .pure ?_
  have ht := lasting_types hr ht
  exact ⟨.some (ht.fn hu), .cons ⟨rfl, hu⟩ .nil, .ofList (.cons ⟨rfl, ht⟩ .nil)⟩

theorem inStep_apply : InStep Pools p apply apply Layouts := by
  refine inStep_fresh.bind fun q t t' _ ht => inStep_fresh.bind fun r u u' hr hu => .pure ?_
  have ht := lasting_types hr ht
  exact ⟨.some hu, .cons ⟨rfl, ht.fn hu⟩ (.cons ⟨rfl, ht⟩ .nil), .empty⟩

theorem inStep_localLet : InStep Pools p localLet localLet Layouts := by
  refine inStep_fresh.bind fun q t t' _ ht => inStep_fresh.bind fun r u u' hr hu => .pure ?_
  have ht := lasting_types hr ht
  exact ⟨.some hu, .cons ⟨rfl, ht⟩ (.cons ⟨rfl, hu⟩ .nil), .ofList (.cons ⟨rfl, ht⟩ .nil)⟩

theorem inStep_list (items : Nat) : InStep Pools p (list items) (list items) Layouts :=
  inStep_fresh.bind fun _ _ _ _ ht =>
    .pure ⟨.some ht.list, entries_map ht _ _, .ofList (.cons ⟨rfl, ht⟩ .nil)⟩

theorem inStep_comprehension (vars : List String) (guards : Nat) :
    InStep Pools p (comprehension vars guards) (comprehension vars guards) Layouts := by
  refine (inStep_freshParams vars).bind fun q elements elements' _ helements => ?_
  refine inStep_fresh.bind fun r t t' hr ht => .pure ?_
  have helements := lasting_entries hr helements
  refine ⟨.some ht.list, ?_, .ofList helements⟩
  refine List.rel_append (List.rel_append ?_ ?_) (.cons ⟨rfl, ht⟩ .nil)
  · rw [List.forall₂_map_left_iff, List.forall₂_map_right_iff]
    exact helements.imp fun _ _ h => ⟨congrArg Slot.generator h.1, h.2.list⟩
  · exact entries_map (.of_ground (by simp [Ty.bool, Ty.base, Ty.vars, Ty.varsAll])) _ _

theorem inStep_cases (decl? : Option DataDecl) (arms : List Arm) :
    InStep Pools p (cases decl? arms) (cases decl? arms) Layouts := by
  have hscrutinee : ∀ x : PoolM Ty, InStep Pools p x x Types →
      InStep Pools p
        (do let t ← x; let u ← fresh; return (⟨some u,
          (Slot.scrutinee, t) :: arms.map fun arm => (Slot.arm arm.constructor, u), ∅⟩ : Layout))
        (do let t ← x; let u ← fresh; return (⟨some u,
          (Slot.scrutinee, t) :: arms.map fun arm => (Slot.arm arm.constructor, u), ∅⟩ : Layout))
        Layouts := fun x hx =>
    hx.bind fun _ _ _ _ ht => inStep_fresh.bind fun _ _ _ hr hu =>
      .pure ⟨.some hu, .cons ⟨rfl, lasting_types hr ht⟩ (entries_map hu _ _), .empty⟩
  cases decl? with
  | none => exact hscrutinee fresh inStep_fresh
  | some decl => exact hscrutinee _ (inStep_instantiate (.closed (Scheme.closed_closed _)))

theorem inStep_function (params : List String) :
    InStep Pools p (function params) (function params) Layouts := by
  refine (inStep_freshParams params).bind fun q types types' _ htypes => ?_
  refine inStep_fresh.bind fun r t t' hr ht => .pure ?_
  exact ⟨.none, .cons ⟨rfl, ht⟩ .nil, .ofList (lasting_entries hr htypes)⟩

theorem inStep_statement (slots : List Ty) :
    InStep Pools p (statement slots) (statement slots) Layouts := by
  have htypes : InStep Pools p (slots.mapM fun slot => instantiate (.closed slot))
      (slots.mapM fun slot => instantiate (.closed slot)) fun q => List.Forall₂ q.Types :=
    .mapM (A := Eq) lasting_types (List.forall₂_refl slots) (by
      rintro q slot _ _ rfl
      exact inStep_instantiate (.closed (Scheme.closed_closed _)))
  exact htypes.bind fun _ _ _ _ hts => .pure ⟨.none, entries_arguments hts, .empty⟩

end Pairing

end Plugboard
