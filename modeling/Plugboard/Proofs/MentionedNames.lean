import Plugboard.Proofs.TreeTypes

/-!
# The names that lowered terms mention

Operators and variables bring the name that they refer to into the term of a tree, and lists,
comprehensions and cases bring in the names that their terms are built from. Any other name that
is free in a lowered term is that of a hole.
-/

namespace Plugboard

open Relation

variable {name : String}

/-- The name occurs free in the term. -/
def Term.Mentions (name : String) : Term → Prop
  | .var name' _ => name' = name
  | .lit _ _ => False
  | .app func arg _ => func.Mentions name ∨ arg.Mentions name
  | .lam param body _ => param ≠ name ∧ body.Mentions name
  | .letIn name' bound body _ => bound.Mentions name ∨ (name' ≠ name ∧ body.Mentions name)

namespace BlockKind

/-- A block of the kind brings the name into its term. -/
def Brings (name : String) : BlockKind → Prop
  | .operator name' _ | .variable name' => name' = name
  | .list _ => name ∈ [Prelude.consName, Prelude.nilName]
  | .comprehension _ _ => name ∈ [Prelude.bindName, Prelude.guardName, Prelude.yieldName]
  | .cases typeName _ => name = caseName typeName
  | _ => False

variable {tag : Tag}

theorem mentions_lamAll {params : List String} {body : Term}
    (h : (Term.lamAll params body).Mentions name) : body.Mentions name := by
  induction params with
  | nil => exact h
  | cons param params ih => exact ih h.2

theorem mentions_tagged {e : Term} : (e.tagged tag).Mentions name ↔ e.Mentions name := by
  cases e <;> exact Iff.rfl

theorem mentions_call {func : Term} {args : List Term} (h : (call tag func args).Mentions name) :
    func.Mentions name ∨ ∃ arg ∈ args, arg.Mentions name := by
  induction args generalizing func with
  | nil => exact .inl h
  | cons arg args ih =>
      rcases ih h with (hfunc | harg) | ⟨other, hmem, hother⟩
      · exact .inl hfunc
      · exact .inr ⟨arg, List.mem_cons_self, harg⟩
      · exact .inr ⟨other, List.mem_cons_of_mem arg hmem, hother⟩

theorem mentions_callName {func : String} {args : List Term}
    (h : (callName tag func args).Mentions name) :
    func = name ∨ ∃ arg ∈ args, arg.Mentions name :=
  mentions_call h

theorem mentions_listTerm {items : List Term} (h : (listTerm tag items).Mentions name) :
    name ∈ [Prelude.consName, Prelude.nilName] ∨ ∃ item ∈ items, item.Mentions name := by
  induction items with
  | nil =>
      obtain rfl : Prelude.nilName = name := h
      simp
  | cons item items ih =>
      rcases mentions_callName h with rfl | ⟨part, hpart, hmentions⟩
      · simp
      · simp only [List.mem_cons, List.not_mem_nil, or_false] at hpart
        rcases hpart with rfl | rfl
        · exact .inr ⟨part, List.mem_cons_self, hmentions⟩
        · exact (ih hmentions).imp_right fun ⟨other, hmem, hother⟩ =>
            ⟨other, List.mem_cons_of_mem item hmem, hother⟩

theorem mentions_comprehensionTerm {generators : List (String × Term)} {guards : List Term}
    {body : Term} (h : (comprehensionTerm tag generators guards body).Mentions name) :
    name ∈ [Prelude.bindName, Prelude.guardName, Prelude.yieldName] ∨
      (∃ generator ∈ generators, generator.2.Mentions name) ∨
      (∃ guard ∈ guards, guard.Mentions name) ∨ body.Mentions name := by
  have hguarded : (guards.foldr
      (fun guard rest => callName tag Prelude.guardName [guard, rest])
      (callName tag Prelude.yieldName [body])).Mentions name →
      name ∈ [Prelude.bindName, Prelude.guardName, Prelude.yieldName] ∨
        (∃ guard ∈ guards, guard.Mentions name) ∨ body.Mentions name := by
    clear h
    induction guards with
    | nil =>
        intro h
        rcases mentions_callName h with rfl | ⟨part, hpart, hmentions⟩
        · simp
        · exact .inr (.inr (List.mem_singleton.1 hpart ▸ hmentions))
    | cons guard guards ih =>
        intro h
        rcases mentions_callName h with rfl | ⟨part, hpart, hmentions⟩
        · simp
        · simp only [List.mem_cons, List.not_mem_nil, or_false] at hpart
          rcases hpart with rfl | rfl
          · exact .inr (.inl ⟨part, List.mem_cons_self, hmentions⟩)
          · exact (ih hmentions).imp_right (.imp_left List.exists_mem_cons_of_exists)
  rw [comprehensionTerm] at h
  induction generators with
  | nil => exact (hguarded h).imp_right .inr
  | cons generator generators ih =>
      rcases mentions_callName h with rfl | ⟨part, hpart, hmentions⟩
      · simp
      · simp only [List.mem_cons, List.not_mem_nil, or_false] at hpart
        rcases hpart with rfl | rfl
        · exact .inr (.inl ⟨generator, List.mem_cons_self, hmentions⟩)
        · exact (ih hmentions.2).imp_right (.imp_left List.exists_mem_cons_of_exists)

/-- A free name in the term of a block is free in what is in a slot, or the block brings it in. -/
theorem mentions_assemble {kind : BlockKind} (hkind : kind.operands?.isSome) (term : String → Term)
    (h : (kind.assemble tag (kind.slots.map term)).Mentions name) :
    kind.Brings name ∨ ∃ slot ∈ kind.slots, (term slot).Mentions name := by
  suffices hparts : kind.Brings name ∨ ∃ part ∈ kind.slots.map term, part.Mentions name from
    hparts.imp_right fun ⟨part, hpart, hmentions⟩ => by
      obtain ⟨slot, hslot, rfl⟩ := List.mem_map.1 hpart
      exact ⟨slot, hslot, hmentions⟩
  cases kind with
  | literal value ty => exact h.elim
  | operator name' arity =>
      generalize (slots (.operator name' arity)).map term = parts at h
      cases parts with
      | nil => exact .inl h
      | cons part parts => exact mentions_callName h
  | «variable» name' => exact .inl h
  | lambda param => exact .inr ⟨_, List.mem_cons_self, h.2⟩
  | apply =>
      rcases mentions_call h with hfunc | ⟨arg, harg, hmentions⟩
      · exact .inr ⟨_, List.mem_cons_self, hfunc⟩
      · exact .inr ⟨arg, List.mem_cons_of_mem _ harg, hmentions⟩
  | localLet name' =>
      rcases h with hbound | ⟨-, hbody⟩
      · exact .inr ⟨_, List.mem_cons_self, hbound⟩
      · exact .inr ⟨_, List.mem_cons_of_mem _ List.mem_cons_self, hbody⟩
  | list items => exact mentions_listTerm h
  | comprehension vars guards =>
      rcases mentions_comprehensionTerm h with
        hown | ⟨generator, hmem, hmentions⟩ | ⟨guard, hmem, hmentions⟩ | hbody
      · exact .inl hown
      · exact .inr ⟨_, List.mem_of_mem_take (List.of_mem_zip hmem).2, hmentions⟩
      · exact .inr ⟨guard, List.mem_of_mem_drop (List.mem_of_mem_take hmem), hmentions⟩
      · refine .inr ⟨term Slot.yielded, List.mem_map_of_mem (by simp [slots]), ?_⟩
        simpa [slots] using hbody
  | cases typeName arms =>
      rcases mentions_callName h with heq | ⟨arg, harg, hmentions⟩
      · exact .inl heq.symm
      · rcases List.mem_cons.1 harg with rfl | harg
        · exact .inr ⟨_, List.mem_cons_self, hmentions⟩
        · rw [← List.map_uncurry_zip_eq_zipWith] at harg
          obtain ⟨⟨arm, body⟩, hmem, rfl⟩ := List.mem_map.1 harg
          exact .inr ⟨body, List.mem_cons_of_mem _ (List.of_mem_zip hmem).2,
            mentions_lamAll hmentions⟩
  | function name' params =>
      refine .inr ⟨_, List.mem_cons_self, ?_⟩
      cases params with
      | nil => exact h
      | cons param params =>
          have htagged : ((Term.lamAll (param :: params) (term Slot.result)).tagged tag).Mentions
            name := h
          exact mentions_lamAll (mentions_tagged.1 htagged)
  | data decl => cases hkind
  | statement name' => cases hkind

end BlockKind

namespace Graph

variable {g : Graph} {b c : BlockId}

/-- The second block is what an input of the first holds that goes by a name. -/
def Takes (g : Graph) (b c : BlockId) : Prop :=
  ∃ slot s, g.inputNamed b slot = .ok s ∧ g.pluggedBlock s = .ok (some c)

/-- A free name in a lowered term is that of a hole, or a block that goes into the term brings it
in. -/
theorem mentions_lowerBlock {fuel : Nat} {l : Lowered} (h : g.lowerBlock fuel b = .ok l)
    (hname : l.term.Mentions name) : (∃ s, name = holeName s) ∨
      ∃ c block, ReflTransGen g.Takes b c ∧ g.blocks[c]? = some block ∧
        block.kind.Brings name := by
  induction fuel generalizing b l with
  | zero => cases h
  | succ fuel ih =>
      obtain ⟨block, hblock, hkind, part, hparts, rfl⟩ := lowerBlock_eq_ok.1 h
      rcases BlockKind.mentions_assemble hkind (fun slot => (part slot).term) hname with
        hbrings | ⟨slot, hslot, hmentions⟩
      · exact .inr ⟨b, block, .refl, hblock, hbrings⟩
      · refine lowerSlot_induct (Q := fun l => l.term.Mentions name → (∃ s, name = holeName s) ∨
          ∃ c block, ReflTransGen g.Takes b c ∧ g.blocks[c]? = some block ∧
            block.kind.Brings name) (fun s _ _ heq => .inl ⟨s, Eq.symm heq⟩)
          (fun s child l hs hchild hl hmentions => ?_) (hparts slot hslot) hmentions
        exact (ih hl hmentions).imp_right fun ⟨c, block, hpath, hrest⟩ =>
          ⟨c, block, hpath.head ⟨slot, s, hs, hchild⟩, hrest⟩

theorem mentions_lower {l : Lowered} (h : g.lower b = .ok l) (hname : l.term.Mentions name) :
    (∃ s, name = holeName s) ∨ ∃ c block, ReflTransGen g.Takes b c ∧
      g.blocks[c]? = some block ∧ block.kind.Brings name := by
  obtain ⟨-, -, h⟩ := bind_eq_ok.1 h
  exact mentions_lowerBlock h hname

end Graph

end Plugboard
