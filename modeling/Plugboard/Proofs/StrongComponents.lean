import Plugboard.Proofs.SearchedGroups

/-!
# Groups are strongly connected components

The search for groups lists every function once: together with those that it reaches and that reach
it, in order, and after all else that it calls. Nothing is asked of the graph for this. A function
that is called but has no entry is a group of its own.
-/

namespace Plugboard.CallGraph

open Relation Plugboard.Graph

variable {g : CallGraph} {f f' x : BlockId} {members : List BlockId}

/-- A function of the graph: one that has an entry or is called. -/
def Node (g : CallGraph) (f : BlockId) : Prop := f ∈ g.functions ∨ ∃ caller, g.Calls caller f

/-- The strongly connected components of a call graph, callees first. -/
structure Components (g : CallGraph) (groups : List (List BlockId)) : Prop where
  nonempty : [] ∉ groups
  node : ∀ members ∈ groups, ∀ f ∈ members, g.Node f
  once : ∀ f, g.Node f → groups.flatten.count f = 1
  together : ∀ f f', g.Node f → g.Node f' →
    ((∃ members ∈ groups, f ∈ members ∧ f' ∈ members) ↔ g.Mutual f f')
  ascending : ∀ members ∈ groups, members.Pairwise fun f f' => f.index < f'.index
  calleesFirst : ∀ {before members after}, groups = before ++ members :: after →
    ∀ f ∈ members, ∀ f', g.Calls f f' → f' ∈ members ∨ ∃ earlier ∈ before, f' ∈ earlier

theorem Node.of_reaches (hf : g.Node f) (hpath : ReflTransGen g.Calls f f') : g.Node f' := by
  rcases ReflTransGen.cases_tail hpath with rfl | ⟨caller, -, hcall⟩
  · exact hf
  · exact .inr ⟨caller, hcall⟩

/-- Only functions of the graph are ever finished. -/
theorem node_of_finished_enter (fuel : Nat) {p : Progress} (hp : ∀ x ∈ p.finished, g.Node x)
    (hf : g.Node f) : ∀ x ∈ (g.enter fuel p f).finished, g.Node x := by
  induction fuel generalizing p f with
  | zero => exact hp
  | succ fuel ih =>
      rw [enter]
      split
      · exact hp
      · have hbelow : ∀ (fs : List BlockId) (p : Progress), (∀ x ∈ p.finished, g.Node x) →
            (∀ c ∈ fs, g.Node c) → ∀ x ∈ (fs.foldl (g.enter fuel) p).finished, g.Node x := by
          intro fs
          induction fs with
          | nil => exact fun _ hp _ => hp
          | cons c fs ihs =>
              intro p hp hfs
              rw [List.forall_mem_cons] at hfs
              exact ihs _ (ih hp hfs.1) hfs.2
        intro x hx
        rcases List.mem_append.1 hx with hx | hx
        · refine hbelow _ { p with entered := p.entered.insert f } hp (fun c hc => ?_) x hx
          exact .inr ⟨f, Std.ExtTreeSet.mem_toList.1 hc⟩
        · exact List.mem_singleton.1 hx ▸ hf

theorem node_of_mem_finishOrder (hf : f ∈ g.finishOrder) : g.Node f := by
  have hall : ∀ (fs : List BlockId) (p : Progress), (∀ x ∈ p.finished, g.Node x) →
      (∀ f ∈ fs, f ∈ g.functions) →
      ∀ x ∈ (fs.foldl (g.enter (g.calls.size + 1)) p).finished, g.Node x := by
    intro fs
    induction fs with
    | nil => exact fun _ hp _ => hp
    | cons f fs ih =>
        intro p hp hfs
        rw [List.forall_mem_cons] at hfs
        exact ih _ (node_of_finished_enter _ hp (.inl hfs.1)) hfs.2
  exact hall g.functions ⟨∅, []⟩ (fun x hx => (List.not_mem_nil hx).elim) (fun _ => id) f hf

/-- A group is that of a function of the graph. -/
theorem exists_of_mem_groups (h : members ∈ g.groups) :
    ∃ f, g.Node f ∧ members = (g.group f).toList := by
  obtain ⟨f, hf, heq⟩ := exists_of_mem_groupsAlong h
  exact ⟨f, node_of_mem_finishOrder hf, heq⟩

theorem mem_group_self (g : CallGraph) (f : BlockId) : f ∈ (g.group f).toList :=
  Std.ExtTreeSet.mem_toList.2 (mem_group.2 ⟨.refl, .refl⟩)

theorem mem_toList_group : x ∈ (g.group f).toList ↔ g.Mutual f x := by
  rw [Std.ExtTreeSet.mem_toList, mem_group]

/-- A function that is called is in a group as well, that of its caller or an earlier one. -/
theorem Node.exists_mem_groups (hf : g.Node f) : ∃ members ∈ g.groups, f ∈ members := by
  rcases hf with hf | ⟨caller, hcall⟩
  · exact CallGraph.exists_mem_groups hf
  · obtain ⟨members, hmembers, hcaller⟩ :=
      CallGraph.exists_mem_groups (mem_functions_of_calls hcall)
    obtain ⟨before, after, hsplit⟩ := List.append_of_mem hmembers
    rcases mem_or_exists_earlier hsplit hcaller (.single hcall) with hf | ⟨earlier, hearlier, hf⟩
    · exact ⟨members, hmembers, hf⟩
    · exact ⟨earlier, hsplit ▸ List.mem_append_left _ hearlier, hf⟩

theorem pairwise_toList_group (g : CallGraph) (f : BlockId) :
    (g.group f).toList.Pairwise fun f f' => f.index < f'.index := by
  have hordered : (g.group f).toList.Pairwise fun a b => compare a b = .lt :=
    Std.ExtTreeSet.ordered_toList
  exact hordered.imp fun {a b} hab =>
    Nat.compare_eq_lt.1 (show compare a.index b.index = .lt from hab)

/-- The search for groups ends, and finds the strongly connected components in an order in which
they can be inferred. -/
theorem searchGroups_components (g : CallGraph) :
    g.searchGroups = some g.groups ∧ g.Components g.groups := by
  refine ⟨searchGroups_eq g, ?_⟩
  constructor
  case nonempty =>
    intro hmem
    obtain ⟨f, -, heq⟩ := exists_of_mem_groups hmem
    exact List.not_mem_nil (heq ▸ g.mem_group_self f)
  case node =>
    intro members hmembers f hf
    obtain ⟨f', hf', rfl⟩ := exists_of_mem_groups hmembers
    exact hf'.of_reaches (mem_toList_group.1 hf).1
  case once =>
    intro f hf
    obtain ⟨members, hmembers, hmem⟩ := hf.exists_mem_groups
    exact List.count_eq_one_of_mem g.nodup_flatten_groups
      (List.mem_flatten.2 ⟨members, hmembers, hmem⟩)
  case together =>
    intro f f' hf _
    constructor
    · rintro ⟨members, hmembers, hmem, hmem'⟩
      obtain ⟨x, -, rfl⟩ := exists_of_mem_groups hmembers
      exact (mem_toList_group.1 hmem).symm.trans (mem_toList_group.1 hmem')
    · intro hmutual
      obtain ⟨members, hmembers, hmem⟩ := hf.exists_mem_groups
      refine ⟨members, hmembers, hmem, ?_⟩
      obtain ⟨x, -, rfl⟩ := exists_of_mem_groups hmembers
      exact mem_toList_group.2 ((mem_toList_group.1 hmem).trans hmutual)
  case ascending =>
    intro members hmembers
    obtain ⟨f, -, rfl⟩ := exists_of_mem_groups hmembers
    exact g.pairwise_toList_group f
  case calleesFirst =>
    exact fun hsplit f hf f' hcall => mem_or_exists_earlier hsplit hf (.single hcall)

/-- Two functions that call each other, one of which calls a third that calls itself. -/
example :
    groups ⟨{(⟨0⟩, {⟨1⟩}), (⟨1⟩, {⟨0⟩, ⟨2⟩}), (⟨2⟩, {⟨2⟩})}⟩ = [[⟨2⟩], [⟨0⟩, ⟨1⟩]] := by
  decide +kernel

end Plugboard.CallGraph
