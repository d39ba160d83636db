import Mathlib.Data.Finset.Card
import Mathlib.Data.List.Nodup
import Mathlib.Logic.Relation
import Plugboard.CallGraph

/-!
# Groups of a call graph

What a function reaches is closed after as many steps as there are functions with calls: a step
that adds a function adds one whose calls have not been followed yet. So two functions are in one
group when each reaches the other, and every function is in just one group.
-/

namespace Plugboard.CallGraph

open Relation

variable {g : CallGraph} {f f' x y : BlockId} {fs : BlockSet}

/-- A call from one function to another. -/
def Calls (g : CallGraph) (f f' : BlockId) : Prop := f' ∈ g.callees f

/-- Each of the two functions reaches the other. -/
def Mutual (g : CallGraph) (f f' : BlockId) : Prop :=
  ReflTransGen g.Calls f f' ∧ ReflTransGen g.Calls f' f

theorem Mutual.symm (h : g.Mutual f f') : g.Mutual f' f := ⟨h.2, h.1⟩

theorem Mutual.trans (h : g.Mutual f f') (h' : g.Mutual f' x) : g.Mutual f x :=
  ⟨h.1.trans h'.1, h'.2.trans h.2⟩

theorem mem_step : x ∈ g.step fs ↔ x ∈ fs ∨ ∃ f ∈ fs, g.Calls f x := by
  simp [step, Std.ExtTreeSet.mem_union_iff, Std.ExtTreeSet.mem_ofList, Calls]

/-- No call leads out of the set. -/
def Closed (g : CallGraph) (fs : BlockSet) : Prop := ∀ f ∈ fs, ∀ f', g.Calls f f' → f' ∈ fs

theorem Closed.mem_step (h : g.Closed fs) : x ∈ g.step fs ↔ x ∈ fs :=
  CallGraph.mem_step.trans ⟨fun hx => hx.elim id fun ⟨f, hf, hcalls⟩ => h f hf x hcalls, .inl⟩

theorem Closed.step (h : g.Closed fs) : g.Closed (g.step fs) := fun f hf f' hcalls =>
  h.mem_step.2 (h f (h.mem_step.1 hf) f' hcalls)

theorem Closed.reach (h : g.Closed fs) (n : Nat) : g.Closed (g.reach n fs) := by
  induction n generalizing fs with
  | zero => exact h
  | succ n ih => exact ih h.step

theorem subset_reach (n : Nat) (hx : x ∈ fs) : x ∈ g.reach n fs := by
  induction n generalizing fs with
  | zero => exact hx
  | succ n ih => exact ih (mem_step.2 (.inl hx))

theorem exists_of_mem_reach {n : Nat} (hx : x ∈ g.reach n fs) :
    ∃ f ∈ fs, ReflTransGen g.Calls f x := by
  induction n generalizing fs with
  | zero => exact ⟨x, hx, .refl⟩
  | succ n ih =>
      obtain ⟨f, hf, hpath⟩ := ih hx
      rcases mem_step.1 hf with hf | ⟨f₀, hf₀, hcalls⟩
      · exact ⟨f, hf, hpath⟩
      · exact ⟨f₀, hf₀, hpath.head hcalls⟩

/-- A function that has no entry calls nothing. -/
theorem mem_functions_of_calls (h : g.Calls f f') : f ∈ g.functions := by
  rw [Calls, callees] at h
  cases hf : g.calls[f]? with
  | none =>
      rw [hf] at h
      exact (Std.ExtTreeSet.not_mem_empty h).elim
  | some callees =>
      exact Std.ExtTreeMap.mem_keys.2 (Std.ExtTreeMap.mem_iff_isSome_getElem?.2 (by simp [hf]))

/-- The functions whose calls have not been followed from what is there. -/
def pending (g : CallGraph) (followed : Finset BlockId) : Finset BlockId :=
  g.functions.toFinset \ followed

/-- With enough steps for what is pending, all that can be reached is there. -/
theorem closed_reach {n : Nat} {followed : Finset BlockId} (hcard : (g.pending followed).card ≤ n)
    (hfollowed : ∀ f ∈ followed, ∀ f', g.Calls f f' → f' ∈ fs) : g.Closed (g.reach n fs) := by
  induction n generalizing fs followed with
  | zero =>
      refine fun f _ f' hcalls => hfollowed f ?_ f' hcalls
      by_contra hf
      have hmem : f ∈ g.pending followed :=
        Finset.mem_sdiff.2 ⟨List.mem_toFinset.2 (mem_functions_of_calls hcalls), hf⟩
      rw [Finset.card_eq_zero.1 (Nat.le_zero.1 hcard)] at hmem
      exact Finset.notMem_empty f hmem
  | succ n ih =>
      by_cases hnew : ∃ f ∈ fs, f ∈ g.pending followed
      · obtain ⟨f, hf, hpending⟩ := hnew
        refine @ih _ (insert f followed) ?_ fun f₀ hf₀ f' hcalls => ?_
        · have hless : g.pending (insert f followed) ⊂ g.pending followed := by
            refine Finset.ssubset_iff_subset_ne.2 ⟨?_, fun heq => ?_⟩
            · exact Finset.sdiff_subset_sdiff le_rfl (Finset.subset_insert f followed)
            · rw [← heq] at hpending
              exact (Finset.mem_sdiff.1 hpending).2 (Finset.mem_insert_self f followed)
          have := Finset.card_lt_card hless
          omega
        · rcases Finset.mem_insert.1 hf₀ with rfl | hf₀
          · exact mem_step.2 (.inr ⟨f₀, hf, hcalls⟩)
          · exact mem_step.2 (.inl (hfollowed f₀ hf₀ f' hcalls))
      · have hclosed : g.Closed fs := by
          refine fun f hf f' hcalls => hfollowed f ?_ f' hcalls
          by_contra hunfollowed
          refine hnew ⟨f, hf, Finset.mem_sdiff.2 ⟨?_, hunfollowed⟩⟩
          exact List.mem_toFinset.2 (mem_functions_of_calls hcalls)
        exact hclosed.step.reach n

theorem mem_reachable : x ∈ g.reachable f ↔ ReflTransGen g.Calls f x := by
  have hstart : f ∈ (Std.ExtTreeSet.ofList [f] : BlockSet) := by
    simp
  constructor
  · intro hx
    obtain ⟨f', hf', hpath⟩ := exists_of_mem_reach hx
    simp only [Std.ExtTreeSet.mem_ofList, List.contains_iff_mem, List.mem_singleton] at hf'
    exact hf' ▸ hpath
  · intro hpath
    have hcard : (g.pending ∅).card ≤ g.calls.size := by
      rw [pending, Finset.sdiff_empty, ← Std.ExtTreeMap.length_keys]
      exact List.toFinset_card_le _
    have hclosed : g.Closed (g.reachable f) := closed_reach hcard (by simp)
    induction hpath with
    | refl => exact subset_reach _ hstart
    | tail _ hcalls ih => exact hclosed _ ih _ hcalls

theorem mem_group : x ∈ g.group f ↔ g.Mutual f x := by
  simp only [group, Std.ExtTreeSet.mem_filter, Std.ExtTreeSet.get_eq,
    Std.ExtTreeSet.contains_iff_mem, mem_reachable, exists_prop]
  exact Iff.rfl

/-- What has been entered is finished by the end, and stays so. -/
structure Advances (p p' : Progress) : Prop where
  finished : ∀ x ∈ p.finished, x ∈ p'.finished
  entered : ∀ x ∈ p.entered, x ∈ p'.entered
  finishes : ∀ x ∈ p'.entered, x ∈ p.entered ∨ x ∈ p'.finished

theorem Advances.refl (p : Progress) : Advances p p := ⟨fun _ => id, fun _ => id, fun _ => .inl⟩

theorem Advances.trans {p p' p'' : Progress} (h : Advances p p') (h' : Advances p' p'') :
    Advances p p'' where
  finished x hx := h'.finished x (h.finished x hx)
  entered x hx := h'.entered x (h.entered x hx)
  finishes x hx := by
    rcases h'.finishes x hx with hx | hx
    · exact (h.finishes x hx).imp_right (h'.finished x)
    · exact .inr hx

theorem advances_foldl {visit : Progress → BlockId → Progress}
    (h : ∀ p f, Advances p (visit p f)) (fs : List BlockId) (p : Progress) :
    Advances p (fs.foldl visit p) := by
  induction fs generalizing p with
  | nil => exact .refl p
  | cons f fs ih => exact (h p f).trans (ih _)

theorem advances_enter (fuel : Nat) (p : Progress) (f : BlockId) :
    Advances p (g.enter fuel p f) := by
  induction fuel generalizing p f with
  | zero => exact .refl p
  | succ fuel ih =>
      rw [enter]
      split
      · exact .refl p
      · have hbelow := advances_foldl ih (g.callees f).toList
          { p with entered := p.entered.insert f }
        refine ⟨fun x hx => List.mem_append_left _ (hbelow.finished x hx),
          fun x hx => hbelow.entered x ?_, fun x hx => ?_⟩
        · exact Std.ExtTreeSet.mem_insert.2 (.inr hx)
        · rcases hbelow.finishes x hx with hx | hx
          · rcases Std.ExtTreeSet.mem_insert.1 hx with heq | hx
            · rw [Std.compare_eq_iff_eq] at heq
              exact .inr (List.mem_append_right _ (List.mem_singleton.2 heq.symm))
            · exact .inl hx
          · exact .inr (List.mem_append_left _ hx)

theorem mem_entered_enter (fuel : Nat) (p : Progress) (f : BlockId) :
    f ∈ (g.enter (fuel + 1) p f).entered := by
  rw [enter]
  split
  · rename_i h
    exact Std.ExtTreeSet.contains_iff_mem.1 h
  · exact (advances_foldl (advances_enter fuel) _ _).entered f
      (Std.ExtTreeSet.mem_insert.2 (.inl (Std.compare_eq_iff_eq.2 rfl)))

theorem mem_finishOrder (hf : f ∈ g.functions) : f ∈ g.finishOrder := by
  have hstep := advances_enter (g := g) (g.calls.size + 1)
  have hentered : ∀ (fs : List BlockId) (p : Progress), f ∈ fs →
      f ∈ (fs.foldl (g.enter (g.calls.size + 1)) p).entered := by
    intro fs
    induction fs with
    | nil => exact fun p hf => (List.not_mem_nil hf).elim
    | cons f' fs ih =>
        intro p hf
        rcases List.mem_cons.1 hf with rfl | hf
        · exact (advances_foldl hstep fs _).entered f (mem_entered_enter _ p f)
        · exact ih _ hf
  refine ((advances_foldl hstep g.functions ⟨∅, []⟩).finishes f (hentered _ _ hf)).resolve_left ?_
  exact Std.ExtTreeSet.not_mem_empty

/-- Of every group that has a listed member there is one. -/
theorem exists_group_of_mem {fs : List BlockId} (hf : f ∈ fs) :
    ∃ f', g.Mutual f' f ∧ (g.group f').toList ∈ g.groupsAlong fs := by
  induction fs generalizing f with
  | nil => exact (List.not_mem_nil hf).elim
  | cons first later ih =>
      rw [groupsAlong]
      split
      · rename_i hlater
        rcases List.mem_cons.1 hf with rfl | hf
        · obtain ⟨x, hx, hmem⟩ := List.any_eq_true.1 hlater
          obtain ⟨f', hf', hgroup⟩ := ih hx
          exact ⟨f', hf'.trans (mem_group.1 (Std.ExtTreeSet.contains_iff_mem.1 hmem)).symm, hgroup⟩
        · exact ih hf
      · rcases List.mem_cons.1 hf with rfl | hf
        · exact ⟨f, ⟨.refl, .refl⟩, List.mem_cons_self⟩
        · obtain ⟨f', hf', hgroup⟩ := ih hf
          exact ⟨f', hf', List.mem_cons_of_mem _ hgroup⟩

theorem exists_of_mem_groupsAlong {fs members : List BlockId} (h : members ∈ g.groupsAlong fs) :
    ∃ f ∈ fs, members = (g.group f).toList := by
  induction fs with
  | nil => exact (List.not_mem_nil h).elim
  | cons first later ih =>
      rw [groupsAlong] at h
      split at h
      · obtain ⟨f, hf, heq⟩ := ih h
        exact ⟨f, List.mem_cons_of_mem _ hf, heq⟩
      · rcases List.mem_cons.1 h with heq | h
        · exact ⟨first, List.mem_cons_self, heq⟩
        · obtain ⟨f, hf, heq⟩ := ih h
          exact ⟨f, List.mem_cons_of_mem _ hf, heq⟩

/-- No function is in two groups, or twice in one. -/
theorem nodup_flatten_groupsAlong (fs : List BlockId) : (g.groupsAlong fs).flatten.Nodup := by
  induction fs with
  | nil => exact List.nodup_nil
  | cons first later ih =>
      rw [groupsAlong]
      split
      · exact ih
      · rename_i hlater
        have hnodup : (g.group first).toList.Nodup :=
          Std.ExtTreeSet.distinct_toList.imp fun hne heq => hne (Std.compare_eq_iff_eq.2 heq)
        refine List.nodup_append.2 ⟨hnodup, ih, ?_⟩
        rintro x hx _ hx' rfl
        obtain ⟨members, hmembers, hx'⟩ := List.mem_flatten.1 hx'
        obtain ⟨f, hf, rfl⟩ := exists_of_mem_groupsAlong hmembers
        rw [Std.ExtTreeSet.mem_toList, mem_group] at hx hx'
        refine hlater (List.any_eq_true.2 ⟨f, hf, ?_⟩)
        exact Std.ExtTreeSet.contains_iff_mem.2 (mem_group.2 (hx.trans hx'.symm))

/-- Every function is in just one group, together with all that it reaches and is reached from. -/
theorem exists_mem_groups (hf : f ∈ g.functions) : ∃ members ∈ g.groups, f ∈ members := by
  obtain ⟨f', hf', hgroup⟩ := exists_group_of_mem (mem_finishOrder hf)
  exact ⟨_, hgroup, Std.ExtTreeSet.mem_toList.2 (mem_group.2 hf')⟩

theorem nodup_flatten_groups (g : CallGraph) : g.groups.flatten.Nodup :=
  nodup_flatten_groupsAlong _

end Plugboard.CallGraph
