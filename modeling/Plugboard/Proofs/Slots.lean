import Mathlib.Data.List.Nodup
import Plugboard.Proofs.Outcome
import Std.Data.String.ToNat

/-!
# Slots of a kind

The slots that a kind of block has, in order. Every layout that a kind can get has exactly
these, whatever is known about the name it calls, and they are distinct unless a comprehension
repeats a variable or a case a constructor.
-/

namespace Plugboard

namespace BlockKind

def slots : BlockKind → List String
  | .literal _ _ | .variable _ | .data _ => []
  | .operator _ arity => (List.range arity).map Slot.arg
  | .lambda _ => [Slot.body]
  | .apply => [Slot.func, Slot.argument]
  | .localLet _ => [Slot.value, Slot.body]
  | .list items => (List.range items).map Slot.item
  | .comprehension vars guards =>
      vars.map Slot.generator ++ (List.range guards).map Slot.guard ++ [Slot.yielded]
  | .cases _ arms => Slot.scrutinee :: arms.map fun arm => Slot.arm arm.constructor
  | .function _ _ => [Slot.result]
  | .statement name => (List.range (Prelude.statements[name]?.getD []).length).map Slot.arg

/-- No variable of a comprehension and no constructor of a case is repeated. -/
def Unrepeated : BlockKind → Prop
  | .comprehension vars _ => vars.Nodup
  | .cases _ arms => (arms.map (·.constructor)).Nodup
  | _ => True

/-- A statement is one of those there are. -/
def Known : BlockKind → Prop
  | .statement name => (Prelude.statements[name]?).isSome
  | _ => True

end BlockKind

namespace Slot

theorem arg_injective : Function.Injective arg := fun _ _ h =>
  Nat.repr_injective (String.append_right_inj _ |>.1 h)

theorem item_injective : Function.Injective item := fun _ _ h =>
  Nat.repr_injective (String.append_right_inj _ |>.1 h)

theorem guard_injective : Function.Injective guard := fun _ _ h =>
  Nat.repr_injective (String.append_right_inj _ |>.1 h)

theorem generator_injective : Function.Injective generator := fun _ _ h =>
  String.append_right_inj _ |>.1 h

theorem arm_injective : Function.Injective arm := fun _ _ h =>
  String.append_right_inj _ |>.1 h

theorem generator_ne_guard (name : String) (index : Nat) : generator name ≠ guard index := by
  simp [generator, guard, ← String.toList_inj]

theorem generator_ne_yielded (name : String) : generator name ≠ yielded := by
  simp [generator, yielded, ← String.toList_inj]

theorem guard_ne_yielded (index : Nat) : guard index ≠ yielded := by
  simp [guard, yielded, ← String.toList_inj]

theorem arm_ne_scrutinee (constructor : String) : arm constructor ≠ scrutinee := by
  simp [arm, scrutinee, ← String.toList_inj]

end Slot

theorem BlockKind.Unrepeated.nodup_slots {kind : BlockKind} (h : kind.Unrepeated) :
    kind.slots.Nodup := by
  cases kind with
  | literal value ty => exact List.nodup_nil
  | operator name arity => exact List.nodup_range.map Slot.arg_injective
  | «variable» name => exact List.nodup_nil
  | lambda param => exact List.nodup_singleton _
  | apply => decide
  | localLet name => exact (by decide : [Slot.value, Slot.body].Nodup)
  | list items => exact List.nodup_range.map Slot.item_injective
  | comprehension vars guards =>
      have hvars : (vars.map Slot.generator).Nodup := List.Nodup.map Slot.generator_injective h
      have hguards : ((List.range guards).map Slot.guard).Nodup :=
        List.nodup_range.map Slot.guard_injective
      refine List.nodup_append.2 ⟨List.nodup_append.2 ⟨hvars, hguards, ?_⟩,
        List.nodup_singleton _, ?_⟩
      · simp [Slot.generator_ne_guard]
      · simp only [List.mem_append, List.mem_map, List.mem_singleton]
        rintro _ (⟨v, -, rfl⟩ | ⟨i, -, rfl⟩) _ rfl
        · exact Slot.generator_ne_yielded v
        · exact Slot.guard_ne_yielded i
  | cases typeName arms =>
      refine List.nodup_cons.2 ⟨?_, ?_⟩
      · simp only [List.mem_map, not_exists, not_and]
        exact fun arm _ => Slot.arm_ne_scrutinee arm.constructor
      · have hmap := List.Nodup.map Slot.arm_injective h
        rwa [List.map_map] at hmap
  | function name params => exact List.nodup_singleton _
  | data decl => exact List.nodup_nil
  | statement name => exact List.nodup_range.map Slot.arg_injective

namespace Layout

/-- A layout has the slots of a kind, and an output if the kind has one. -/
structure Fits (layout : Layout) (kind : BlockKind) : Prop where
  slots : layout.inputs.map (·.1) = kind.slots
  output : layout.output.isSome = kind.hasOutput

theorem map_fst_arguments (types : List Ty) :
    (arguments types).map (·.1) = (List.range types.length).map Slot.arg := by
  rw [arguments, List.map_map, List.range_eq_range', ← List.zipIdx_map_snd 0 types, List.map_map]
  rfl

theorem mapM_cons_fst {α β : Type} (f : α → PoolM β) (x : α) (xs : List α) (pool : VarPool) :
    (((x :: xs).mapM f).run pool).1 =
      ((f x).run pool).1 :: ((xs.mapM f).run ((f x).run pool).2).1 := by
  rw [List.mapM_cons]
  rfl

theorem length_mapM {α β : Type} (f : α → PoolM β) (xs : List α) (pool : VarPool) :
    ((xs.mapM f).run pool).1.length = xs.length := by
  induction xs generalizing pool with
  | nil => rfl
  | cons x xs ih => rw [mapM_cons_fst, List.length_cons, List.length_cons, ih]

theorem map_fst_freshParams (names : List String) (pool : VarPool) :
    ((freshParams names).run pool).1.map (·.1) = names := by
  rw [freshParams]
  induction names generalizing pool with
  | nil => rfl
  | cons name names ih =>
      rw [mapM_cons_fst, List.map_cons, ih]
      rfl

theorem length_uncurry_le (limit : Nat) (t : Ty) : (t.uncurry limit).1.length ≤ limit := by
  fun_induction Ty.uncurry limit t with
  | case1 limit arg result args rest h ih => simpa [h] using ih
  | case2 => exact Nat.zero_le _

theorem fits_ofTy (t : Ty) (name : String) (arity : Nat) (pool : VarPool) :
    ((ofTy t arity).run pool).1.Fits (.operator name arity) := by
  have hle := length_uncurry_le arity t
  rw [ofTy]
  generalize t.uncurry arity = parts at hle
  obtain ⟨args, result⟩ := parts
  simp only at hle ⊢
  split
  · rename_i hlt
    refine ⟨?_, rfl⟩
    have hmore := length_mapM id (List.replicate (arity - args.length) fresh) pool
    rw [List.length_replicate] at hmore
    have hslots := map_fst_arguments
      (args ++ (((List.replicate (arity - args.length) fresh).mapM id).run pool).1)
    rw [List.length_append, hmore, Nat.add_sub_cancel' hle] at hslots
    exact hslots
  · rename_i hge
    have harity : args.length = arity := by omega
    exact ⟨(map_fst_arguments args).trans (by rw [harity]; rfl), rfl⟩

theorem fits_operator (scheme? : Option Scheme) (name : String) (arity : Nat) (pool : VarPool) :
    ((operator scheme? arity).run pool).1.Fits (.operator name arity) := by
  cases scheme? with
  | none => exact fits_ofTy _ name arity _
  | some scheme => exact fits_ofTy _ name arity _

theorem fits_list (items : Nat) (pool : VarPool) :
    ((list items).run pool).1.Fits (.list items) where
  slots := by
    change ((List.range items).map fun i => (Slot.item i, _)).map (·.1) = _
    rw [List.map_map]
    rfl
  output := rfl

theorem fits_comprehension (vars : List String) (guards : Nat) (pool : VarPool) :
    ((comprehension vars guards).run pool).1.Fits (.comprehension vars guards) where
  slots := by
    have hvars : ((freshParams vars).run pool).1.map (fun entry => Slot.generator entry.1) =
        vars.map Slot.generator := by
      conv_rhs => rw [← map_fst_freshParams vars pool]
      rw [List.map_map]
      rfl
    have hrun : ((comprehension vars guards).run pool).1.inputs =
        (((freshParams vars).run pool).1.map fun entry => (Slot.generator entry.1, entry.2.list)) ++
          (List.range guards).map (fun i => (Slot.guard i, Ty.bool)) ++
          [(Slot.yielded, (fresh.run ((freshParams vars).run pool).2).1)] := rfl
    rw [hrun, List.map_append, List.map_append, List.map_map, List.map_map]
    exact congrArg₂ (· ++ ·) (congrArg₂ (· ++ ·) hvars rfl) rfl
  output := rfl

theorem fits_cases (decl? : Option DataDecl) (typeName : String) (arms : List Arm)
    (pool : VarPool) : ((cases decl? arms).run pool).1.Fits (.cases typeName arms) := by
  cases decl? with
  | none => exact ⟨congrArg (Slot.scrutinee :: ·) (List.map_map ..), rfl⟩
  | some decl => exact ⟨congrArg (Slot.scrutinee :: ·) (List.map_map ..), rfl⟩

theorem fits_statement (name : String) (slots : List Ty)
    (h : Prelude.statements[name]? = some slots) (pool : VarPool) : ((statement slots).run pool).1.Fits (.statement name) where
  slots := by
    refine (map_fst_arguments _).trans ?_
    rw [BlockKind.slots, h]
    exact congrArg (fun n => (List.range n).map Slot.arg)
      (length_mapM (fun slot => instantiate (.closed slot)) slots pool)
  output := rfl

end Layout

namespace WorkspaceM

/-- A layout fits its kind, and only the pool pays for it. There is none for a statement that is
not known or a call of a function whose type cannot be read. -/
theorem ends_layoutFor (ws : Workspace) (kind : BlockKind) :
    Ends (layoutFor kind) ws
      (fun layout ws' => layout.Fits kind ∧ kind.Known ∧ ∃ pool, ws' = { ws with pool })
      fun ws' => ws' = ws ∧
        ¬ (kind.Known ∧ ∀ name, ∃ scheme?, ws.functionScheme? name = .ok scheme?) := by
  cases kind with
  | literal value ty => exact ⟨⟨rfl, rfl⟩, trivial, ws.pool, rfl⟩
  | operator name arity =>
      rw [layoutFor, ends_bind, ends_query]
      cases hcallee : ws.calleeScheme? name with
      | ok scheme? => exact ⟨Layout.fits_operator scheme? name arity ws.pool, trivial, _, rfl⟩
      | error e =>
          refine ⟨rfl, fun ⟨_, hread⟩ => ?_⟩
          obtain ⟨scheme?, hscheme⟩ := hread name
          rw [Workspace.calleeScheme?, hscheme] at hcallee
          cases hop : ws.operatorScheme? name <;> rw [hop] at hcallee <;> cases hcallee
  | «variable» name => exact ⟨⟨rfl, rfl⟩, trivial, _, rfl⟩
  | lambda param => exact ⟨⟨rfl, rfl⟩, trivial, _, rfl⟩
  | apply => exact ⟨⟨rfl, rfl⟩, trivial, _, rfl⟩
  | localLet name => exact ⟨⟨rfl, rfl⟩, trivial, _, rfl⟩
  | list items => exact ⟨Layout.fits_list items ws.pool, trivial, _, rfl⟩
  | comprehension vars guards =>
      exact ⟨Layout.fits_comprehension vars guards ws.pool, trivial, _, rfl⟩
  | cases typeName arms =>
      exact ⟨Layout.fits_cases (ws.declaration? typeName) typeName arms ws.pool, trivial, _, rfl⟩
  | function name params => exact ⟨⟨rfl, rfl⟩, trivial, _, rfl⟩
  | data decl => exact ⟨⟨rfl, rfl⟩, trivial, ws.pool, rfl⟩
  | statement name =>
      rw [layoutFor]
      cases hslots : Prelude.statements[name]? with
      | some slots =>
          refine ⟨Layout.fits_statement name slots hslots ws.pool, ?_, _, rfl⟩
          rw [BlockKind.Known, hslots]
          rfl
      | none =>
          refine ⟨rfl, fun ⟨hknown, _⟩ => ?_⟩
          rw [BlockKind.Known, hslots] at hknown
          cases hknown

end WorkspaceM

end Plugboard
