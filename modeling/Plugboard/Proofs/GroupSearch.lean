import Plugboard.Proofs.UnboundedWalks

/-!
# Finding groups in one search

The groups of a call graph as one depth-first search finds them. Functions are numbered as they are
entered and stay on a stack until their group is complete. Each knows the lowest number on the stack
that it is known to lead back to; one that leads back to no lower number than its own is the first
of its group, and the rest of the group is above it on the stack. The search has no outcome if a
number that it looks up is missing, or if it goes on for ever.
-/

namespace Plugboard.CallGraph

open Relation Plugboard.Graph

/-- What a search has found so far. -/
structure Search where
  count : Nat
  /-- The numbers of the functions that have been entered. -/
  index : Std.ExtTreeMap BlockId Nat
  /-- The lowest numbers that they are known to lead back to. -/
  low : Std.ExtTreeMap BlockId Nat
  /-- The functions whose groups are not complete, the latest first. -/
  stack : List BlockId
  onStack : BlockSet
  groups : List (List BlockId)

namespace Search

def empty : Search := ⟨0, ∅, ∅, [], ∅, []⟩

/-- Gives a function the next number and puts it on the stack. -/
def push (s : Search) (f : BlockId) : Search :=
  { s with
    count := s.count + 1
    index := s.index.insert f s.count
    low := s.low.insert f s.count
    stack := f :: s.stack
    onStack := s.onStack.insert f }

/-- Notes that a function leads back to a number. -/
def leadBack (s : Search) (f : BlockId) (n? : Option Nat) : Option Search := do
  let low ← s.low[f]?
  return { s with low := s.low.insert f (min low (← n?)) }

/-- What is on a stack as far as `f`, and the rest. -/
def popTo (f : BlockId) : List BlockId → List BlockId × List BlockId
  | [] => ([], [])
  | x :: stack =>
      if x = f then ([x], stack)
      else ((popTo f stack).map (x :: ·) id)

/-- Takes a group from the stack if `f` is the first function of it. -/
def close (s : Search) (f : BlockId) : Option Search := do
  if (← s.low[f]?) = (← s.index[f]?) then
    let (group, stack) := popTo f s.stack
    return { s with
      stack
      onStack := s.onStack \ .ofList group
      groups := s.groups ++ [group.mergeSort fun a b => (compare a b).isLE] }
  else return s

end Search

/-- Enters a function, then all that it calls and that has not been entered yet. -/
def visit (g : CallGraph) : Nat → Search → BlockId → Option Search
  | 0, _, _ => none
  | n + 1, s, f => do
      let s ← (g.callees f).toList.foldlM (fun s c => do
        if ! s.index.contains c then
          let s ← visit g n s c
          s.leadBack f s.low[c]?
        else if s.onStack.contains c then s.leadBack f s.index[c]?
        else return s) (s.push f)
      s.close f

def searchIn (g : CallGraph) (n : Nat) : Option (List (List BlockId)) := do
  let s ← g.functions.foldlM (fun s f =>
    if s.index.contains f then return s else g.visit n s f) .empty
  return s.groups

noncomputable def searchGroups (g : CallGraph) : Option (List (List BlockId)) :=
  unbounded g.searchIn

variable {g : CallGraph} {f x y : BlockId} {p : Progress} {s s' : Search} {path : List BlockId}

section Closed

/-- The groups of the listed functions that have no open member, each at the place of its last
member. -/
def closedGroups (g : CallGraph) (openFs : List BlockId) : List BlockId → List (List BlockId)
  | [] => []
  | f :: later =>
      if (later ++ openFs).any (g.group f).contains then closedGroups g openFs later
      else (g.group f).toList :: closedGroups g openFs later

theorem closedGroups_nil (g : CallGraph) (fs : List BlockId) :
    g.closedGroups [] fs = g.groupsAlong fs := by
  induction fs with
  | nil => rfl
  | cons f later ih => rw [closedGroups, groupsAlong, ih, List.append_nil]

/-- Of the open functions only those count that share a group with a listed one. -/
theorem closedGroups_congr {openFs openFs' fs : List BlockId}
    (h : ∀ f ∈ fs, openFs.any (g.group f).contains = openFs'.any (g.group f).contains) :
    g.closedGroups openFs fs = g.closedGroups openFs' fs := by
  induction fs with
  | nil => rfl
  | cons f later ih =>
      rw [List.forall_mem_cons] at h
      rw [closedGroups, closedGroups, ih h.2, List.any_append, List.any_append, h.1]

/-- A group may be complete when one more function is finished. -/
theorem closedGroups_finish (openFs fs : List BlockId) (f : BlockId) :
    g.closedGroups openFs (fs ++ [f]) = g.closedGroups (f :: openFs) fs ++
      if openFs.any (g.group f).contains then [] else [(g.group f).toList] := by
  induction fs with
  | nil => simp [closedGroups]
  | cons x later ih =>
      rw [List.cons_append, closedGroups, closedGroups, ih, List.append_assoc,
        List.singleton_append]
      split
      · rfl
      · rw [List.cons_append]

theorem any_group_contains {fs : List BlockId} :
    fs.any (g.group f).contains = true ↔ ∃ x ∈ fs, g.Mutual f x := by
  simp only [List.any_eq_true, Std.ExtTreeSet.contains_iff_mem, mem_group]

end Closed

namespace Search

/-- The number of a function that has been entered. -/
def number (s : Search) (x : BlockId) : Nat := s.index[x]?.getD 0

theorem popTo_append {above below : List BlockId} (hf : f ∉ above) :
    popTo f (above ++ f :: below) = (above ++ [f], below) := by
  induction above with
  | nil => exact if_pos rfl
  | cons x above ih =>
      obtain ⟨hx, hf⟩ := not_or.1 (List.mem_cons.not.1 hf)
      rw [List.cons_append, popTo, if_neg (Ne.symm hx), ih hf]
      rfl

/-- A search that has come as far as `p`, in the functions on `path`, the latest first. -/
structure Follows (g : CallGraph) (path : List BlockId) (p : Progress) (s : Search) : Prop where
  entered : ∀ x, x ∈ s.index ↔ x ∈ p.entered
  finished : ∀ x ∈ p.finished, x ∈ p.entered ∧ x ∉ path
  onStack : ∀ x, x ∈ s.onStack ↔ x ∈ s.stack
  stacked : ∀ x ∈ s.stack, x ∈ p.entered
  lt : ∀ x ∈ p.entered, s.number x < s.count
  falling : s.stack.Pairwise fun x y => s.number y < s.number x
  onPath : ∀ x ∈ path, x ∈ s.stack
  pathFalling : path.Pairwise fun x y => s.number y < s.number x
  called : ∀ x ∈ p.entered, x ∉ path → ∀ y, g.Calls x y → y ∈ p.entered
  shut : ∀ x ∈ p.entered, x ∉ s.stack → ∀ y, g.Calls x y → y ∉ s.stack
  leads : ∀ u ∈ path, ∀ x ∈ s.stack, s.number u ≤ s.number x → ReflTransGen g.Calls u x
  back : ∀ x ∈ s.stack, ∃ u ∈ path, s.number u ≤ s.number x ∧ ReflTransGen g.Calls x u
  groups : s.groups = g.closedGroups path p.finished

theorem index_push (s : Search) (f x : BlockId) :
    (s.push f).index[x]? = if x = f then some s.count else s.index[x]? := by
  simp only [push, Std.ExtTreeMap.getElem?_insert, Std.compare_eq_iff_eq, eq_comm (a := f)]

theorem number_push (s : Search) (f x : BlockId) :
    (s.push f).number x = if x = f then s.count else s.number x := by
  rw [number, index_push]
  split <;> rfl

theorem number_push_of_ne (h : x ≠ f) : (s.push f).number x = s.number x := by
  rw [number_push, if_neg h]

/-- A finished function that leads to one that has not been entered does so through an open one. -/
theorem Follows.exists_open (h : Follows g path p s) (hx : x ∈ p.entered)
    (hy : y ∉ p.entered) (hpath : ReflTransGen g.Calls x y) :
    ∃ u ∈ path, ReflTransGen g.Calls x u ∧ ReflTransGen g.Calls u y := by
  induction hpath using ReflTransGen.head_induction_on with
  | refl => exact (hy hx).elim
  | @head x z hcall hpath ih =>
      by_cases hopen : x ∈ path
      · exact ⟨x, hopen, .refl, hpath.head hcall⟩
      · obtain ⟨u, hu, hzu, huy⟩ := ih (h.called x hx hopen z hcall)
        exact ⟨u, hu, hzu.head hcall, huy⟩

theorem Follows.push (h : Follows g path p s) (hf : f ∉ p.entered)
    (hleads : ∀ u ∈ path, ReflTransGen g.Calls u f) :
    Follows g (f :: path) { p with entered := p.entered.insert f } (s.push f) := by
  have hne : ∀ {x}, x ∈ p.entered → x ≠ f := fun hx heq => hf (heq ▸ hx)
  have hnumber : ∀ {x}, x ∈ p.entered → (s.push f).number x = s.number x := fun hx =>
    number_push_of_ne (hne hx)
  have hself : (s.push f).number f = s.count := by rw [number_push, if_pos rfl]
  have hstack : ∀ {x}, x ∈ s.stack → (s.push f).number x = s.number x := fun hx =>
    hnumber (h.stacked _ hx)
  have hpath : ∀ {x}, x ∈ path → (s.push f).number x = s.number x := fun hx =>
    hstack (h.onPath _ hx)
  have hlt : ∀ {x}, x ∈ p.entered → (s.push f).number x < (s.push f).number f := fun hx => by
    rw [hnumber hx, hself]
    exact h.lt _ hx
  have hfall : ∀ {xs : List BlockId}, (∀ x ∈ xs, x ∈ p.entered) →
      xs.Pairwise (fun x y => s.number y < s.number x) →
      (f :: xs).Pairwise fun x y => (s.push f).number y < (s.push f).number x := by
    refine fun {xs} hxs hfalling => List.pairwise_cons.2 ⟨fun x hx => hlt (hxs x hx), ?_⟩
    refine hfalling.imp_of_mem fun {x y} hx hy hxy => ?_
    rwa [hnumber (hxs x hx), hnumber (hxs y hy)]
  constructor
  case entered =>
    intro x
    rw [Search.push, Std.ExtTreeMap.mem_insert, Std.compare_eq_iff_eq, mem_insert, h.entered,
      eq_comm]
  case finished =>
    intro x hx
    obtain ⟨hentered, hclosed⟩ := h.finished x hx
    exact ⟨mem_insert.2 (.inr hentered), List.mem_cons.not.2 (not_or.2 ⟨hne hentered, hclosed⟩)⟩
  case onStack =>
    intro x
    rw [Search.push, mem_insert, List.mem_cons, h.onStack]
  case stacked =>
    intro x hx
    exact mem_insert.2 ((List.mem_cons.1 hx).imp_right (h.stacked x))
  case lt =>
    intro x hx
    refine Nat.lt_succ_of_le ?_
    rcases mem_insert.1 hx with rfl | hx
    · exact hself.le
    · exact hself ▸ (hlt hx).le
  case falling =>
    exact hfall h.stacked h.falling
  case onPath =>
    intro x hx
    exact List.mem_cons.2 ((List.mem_cons.1 hx).imp_right (h.onPath x))
  case pathFalling =>
    exact hfall (fun x hx => h.stacked x (h.onPath x hx)) h.pathFalling
  case called =>
    intro x hx hclosed y hy
    obtain ⟨hxf, hclosed⟩ := not_or.1 (List.mem_cons.not.1 hclosed)
    exact mem_insert.2 (.inr (h.called x ((mem_insert.1 hx).resolve_left hxf) hclosed y hy))
  case shut =>
    intro x hx hout y hy hmem
    obtain ⟨hxf, hbelow⟩ := not_or.1 (List.mem_cons.not.1 hout)
    have hold := (mem_insert.1 hx).resolve_left hxf
    rcases List.mem_cons.1 hmem with heq | hmem
    · exact hf (heq ▸ h.called x hold (fun hopen => hbelow (h.onPath x hopen)) y hy)
    · exact h.shut x hold hbelow y hy hmem
  case leads =>
    intro u hu x hx hle
    rcases List.mem_cons.1 hu with rfl | hold
    · rcases List.mem_cons.1 hx with rfl | hx
      · exact .refl
      · exact absurd (hlt (h.stacked x hx)) (Nat.not_lt.2 hle)
    · rcases List.mem_cons.1 hx with rfl | hx
      · exact hleads u hold
      · rw [hpath hold, hstack hx] at hle
        exact h.leads u hold x hx hle
  case back =>
    intro x hx
    rcases List.mem_cons.1 hx with rfl | hx
    · exact ⟨x, List.mem_cons_self, le_rfl, .refl⟩
    · obtain ⟨u, hu, hle, hxu⟩ := h.back x hx
      refine ⟨u, List.mem_cons_of_mem f hu, ?_, hxu⟩
      rwa [hpath hu, hstack hx]
  case groups =>
    refine h.groups.trans (closedGroups_congr fun x hx => ?_)
    rw [Bool.eq_iff_iff, any_group_contains, any_group_contains]
    refine ⟨fun ⟨u, hu, hmutual⟩ => ⟨u, List.mem_cons_of_mem f hu, hmutual⟩, ?_⟩
    rintro ⟨u, hu, hmutual⟩
    -- `f` shares a group with something finished only if that leads to `f` through an open function
    rcases List.mem_cons.1 hu with rfl | hu
    · obtain ⟨w, hw, hxw, hwu⟩ := h.exists_open (h.finished x hx).1 hf hmutual.1
      exact ⟨w, hw, hxw, hwu.trans hmutual.2⟩
    · exact ⟨u, hu, hmutual⟩

end Search

end Plugboard.CallGraph
