import Plugboard.Proofs.GroupSearch

/-!
# What the search for groups finds

While the search looks through the calls of a function, what it has found so far bounds the numbers
that the function leads back to. So when it comes back it takes the function's group from the stack,
or leaves it there with something that was entered earlier. No number is ever missing, and the
groups are those of the call graph, callees first.
-/

namespace Plugboard.CallGraph

open Relation Plugboard.Graph

variable {g : CallGraph} {f x y : BlockId} {p : Progress} {s s' : Search} {path : List BlockId}

namespace Search

/-- What had been entered before is as it was, apart from functions that are not on the stack. -/
structure Keeps (p₀ : Progress) (s₀ : Search) (p : Progress) (s : Search) : Prop where
  count : s₀.count ≤ s.count
  entered : ∀ x ∈ p₀.entered, x ∈ p.entered
  fresh : ∀ x ∈ p.entered, x ∉ p₀.entered → s₀.count ≤ s.number x
  index : ∀ x ∈ p₀.entered, s.index[x]? = s₀.index[x]?
  low : ∀ x ∈ p₀.entered, s.low[x]? = s₀.low[x]?
  stack : ∀ x ∈ p₀.entered, x ∈ s.stack ↔ x ∈ s₀.stack

variable {p₀ p' : Progress} {s₀ : Search} {done : List BlockId} {l : Nat}

theorem Keeps.number (h : Keeps p₀ s₀ p s) (hx : x ∈ p₀.entered) : s.number x = s₀.number x := by
  rw [Search.number, h.index x hx, Search.number]

theorem Keeps.trans (h : Keeps p₀ s₀ p s) (h' : Keeps p s p' s') : Keeps p₀ s₀ p' s' where
  count := h.count.trans h'.count
  entered x hx := h'.entered x (h.entered x hx)
  fresh x hx hnew := by
    by_cases hmid : x ∈ p.entered
    · rw [h'.number hmid]
      exact h.fresh x hmid hnew
    · exact h.count.trans (h'.fresh x hx hmid)
  index x hx := (h'.index x (h.entered x hx)).trans (h.index x hx)
  low x hx := (h'.low x (h.entered x hx)).trans (h.low x hx)
  stack x hx := (h'.stack x (h.entered x hx)).trans (h.stack x hx)

/-- A search that looks through what `f` calls, and has been through `done`. -/
structure Scans (g : CallGraph) (f : BlockId) (path : List BlockId) (p₀ : Progress) (s₀ : Search)
    (done : List BlockId) (p : Progress) (s : Search) : Prop where
  start : Follows g path p₀ s₀
  new : f ∉ p₀.entered
  follows : Follows g (f :: path) p s
  keeps : Keeps p₀ s₀ p s
  index : s.index[f]? = some s₀.count
  done : ∀ c ∈ done, c ∈ p.entered

/-- What is on the stack from `f` on leads back to `l`, and to nothing lower by a single call. -/
structure Bounds (g : CallGraph) (f : BlockId) (p₀ : Progress) (done : List BlockId) (l : Nat)
    (s : Search) : Prop where
  low : s.low[f]? = some l
  leSelf : l ≤ s.number f
  reached : ∃ x ∈ s.stack, s.number x = l ∧ ReflTransGen g.Calls f x
  le : ∀ x ∈ s.stack, x ∉ p₀.entered → ∀ y ∈ s.stack, g.Calls x y → (x = f → y ∈ done) →
    l ≤ s.number y

/-- A search that has come back from `f`. -/
structure Visited (g : CallGraph) (f : BlockId) (path : List BlockId) (p₀ : Progress) (s₀ : Search)
    (p : Progress) (s : Search) : Prop where
  follows : Follows g path p s
  keeps : Keeps p₀ s₀ p s
  entered : f ∈ p.entered
  low : ∃ l, s.low[f]? = some l ∧
    (s.number f ≤ l ∨ ∃ x ∈ s.stack, s.number x = l ∧ ReflTransGen g.Calls f x) ∧
    ∀ x ∈ s.stack, x ∉ p₀.entered → ∀ y ∈ s.stack, g.Calls x y → l ≤ s.number y

theorem Follows.split_stack (h : Follows g path p s) (hf : f ∈ s.stack) :
    ∃ above below, s.stack = above ++ f :: below ∧ f ∉ above ∧
      (∀ x, x ∈ above ++ [f] ↔ x ∈ s.stack ∧ s.number f ≤ s.number x) ∧
      ∀ x, x ∈ below ↔ x ∈ s.stack ∧ s.number x < s.number f := by
  obtain ⟨above, below, hstack⟩ := List.append_of_mem hf
  have hfalling := hstack ▸ h.falling
  obtain ⟨-, hbelow, habove⟩ := List.pairwise_append.1 hfalling
  have habove : ∀ x ∈ above, s.number f < s.number x := fun x hx =>
    habove x hx f List.mem_cons_self
  have hbelow : ∀ x ∈ below, s.number x < s.number f := (List.pairwise_cons.1 hbelow).1
  have hmem : ∀ x, x ∈ s.stack ↔ x ∈ above ∨ x = f ∨ x ∈ below := by
    simp [hstack]
  refine ⟨above, below, hstack, fun hf => (habove f hf).false, fun x => ?_, fun x => ?_⟩
  · rw [hmem, List.mem_append, List.mem_singleton]
    constructor
    · rintro (hx | rfl)
      · exact ⟨.inl hx, (habove x hx).le⟩
      · exact ⟨.inr (.inl rfl), le_rfl⟩
    · rintro ⟨hx | rfl | hx, hle⟩
      · exact .inl hx
      · exact .inr rfl
      · exact absurd (hbelow x hx) (Nat.not_lt.2 hle)
  · rw [hmem]
    constructor
    · exact fun hx => ⟨.inr (.inr hx), hbelow x hx⟩
    · rintro ⟨hx | rfl | hx, hlt⟩
      · exact absurd (habove x hx) (Nat.not_lt.2 hlt.le)
      · exact absurd hlt (lt_irrefl _)
      · exact hx

/-- Sorting the members of a set gives its list. -/
theorem mergeSort_eq_toList {xs : List BlockId} {t : BlockSet} (hxs : xs.Nodup)
    (h : ∀ x, x ∈ xs ↔ x ∈ t) : (xs.mergeSort fun a b => (compare a b).isLE) = t.toList := by
  have hordered : t.toList.Pairwise fun a b => compare a b = .lt := Std.ExtTreeSet.ordered_toList
  refine @List.Perm.eq_of_pairwise _ (fun a b : BlockId => (compare a b).isLE = true) _ _
    (fun a b _ _ hab hba => ?_) (List.pairwise_mergeSort ?_ ?_ xs)
    (hordered.imp fun hab => by rw [hab]; rfl) ?_
  · exact Std.LawfulEqCmp.eq_of_compare (Std.OrientedCmp.isLE_antisymm hab hba)
  · exact fun a b c => Std.TransCmp.isLE_trans
  · intro a b
    rw [(Std.OrientedCmp.eq_swap : compare b a = (compare a b).swap)]
    cases compare a b <;> rfl
  · refine (List.mergeSort_perm xs _).trans ((List.perm_ext_iff_of_nodup hxs ?_).2 fun x => ?_)
    · exact hordered.imp fun hab heq => by simp [heq] at hab
    · rw [h, Std.ExtTreeSet.mem_toList]

namespace Scans

theorem number (h : Scans g f path p₀ s₀ done p s) : s.number f = s₀.count := by
  rw [Search.number, h.index]
  rfl

theorem mem_stack (h : Scans g f path p₀ s₀ done p s) : f ∈ s.stack :=
  h.follows.onPath f List.mem_cons_self

theorem mem_entered (h : Scans g f path p₀ s₀ done p s) (hx : x ∈ path) : x ∈ p₀.entered :=
  h.start.stacked x (h.start.onPath x hx)

/-- What was entered no earlier than `f` has a number that is no lower. -/
theorem number_le_iff (h : Scans g f path p₀ s₀ done p s) (hx : x ∈ p.entered) :
    s.number f ≤ s.number x ↔ x ∉ p₀.entered := by
  rw [h.number]
  refine ⟨fun hle hold => ?_, h.keeps.fresh x hx⟩
  rw [h.keeps.number hold] at hle
  exact absurd (h.start.lt x hold) (Nat.not_lt.2 hle)

theorem number_lt (h : Scans g f path p₀ s₀ done p s) (hx : x ∈ p₀.entered) :
    s.number x < s.number f :=
  Nat.lt_of_not_le fun hle => (h.number_le_iff (h.keeps.entered x hx)).1 hle hx

/-- What is below `f` on the stack leads back to something open that is not `f`. -/
theorem back_below (h : Scans g f path p₀ s₀ done p s) (hx : x ∈ s.stack)
    (hlt : s.number x < s.number f) :
    ∃ u ∈ path, s.number u ≤ s.number x ∧ ReflTransGen g.Calls x u := by
  obtain ⟨u, hu, hle, hxu⟩ := h.follows.back x hx
  rcases List.mem_cons.1 hu with rfl | hu
  · exact absurd hlt (Nat.not_lt.2 hle)
  · exact ⟨u, hu, hle, hxu⟩

/-- Everything that has been entered from `f` on has had its calls looked through. -/
theorem called (h : Scans g f path p₀ s₀ done p s) (hdone : ∀ c, g.Calls f c → c ∈ done)
    (hx : x ∈ p.entered) (hout : x ∉ path) (hy : g.Calls x y) : y ∈ p.entered := by
  by_cases heq : x = f
  · exact h.done y (hdone y (heq ▸ hy))
  · exact h.follows.called x hx (List.mem_cons.not.2 (not_or.2 ⟨heq, hout⟩)) y hy

/-- What a complete group leads to is never on the stack again. -/
theorem not_mem_stack_of_reaches (h : Scans g f path p₀ s₀ done p s)
    (hdone : ∀ c, g.Calls f c → c ∈ done) (hx : x ∈ p.entered) (hout : x ∉ s.stack)
    (hpath : ReflTransGen g.Calls x y) : y ∉ s.stack := by
  suffices hboth : y ∈ p.entered ∧ y ∉ s.stack from hboth.2
  induction hpath with
  | refl => exact ⟨hx, hout⟩
  | tail _ hcall ih =>
      refine ⟨h.called hdone ih.1 (fun hopen => ih.2 ?_) hcall, h.follows.shut _ ih.1 ih.2 _ hcall⟩
      exact h.follows.onPath _ (List.mem_cons_of_mem f hopen)

/-- What is finished when `f` is has been entered and is not open any more. -/
theorem finished (h : Scans g f path p₀ s₀ done p s) :
    ∀ x ∈ p.finished ++ [f], x ∈ p.entered ∧ x ∉ path := by
  intro x hx
  rcases List.mem_append.1 hx with hx | hx
  · obtain ⟨hentered, hclosed⟩ := h.follows.finished x hx
    exact ⟨hentered, (not_or.1 (List.mem_cons.not.1 hclosed)).2⟩
  · obtain rfl := List.mem_singleton.1 hx
    exact ⟨h.follows.stacked x h.mem_stack, fun hopen => h.new (h.mem_entered hopen)⟩

section First

variable (h : Scans g f path p₀ s₀ done p s) (hl : Bounds g f p₀ done s₀.count s)
  (hdone : ∀ c, g.Calls f c → c ∈ done)

include h hl hdone

/-- If `f` leads back to nothing lower, calls from the stack above it stay there or lead to complete
groups. -/
theorem new_of_reaches (hx : x ∈ s.stack) (hnew : x ∉ p₀.entered)
    (hpath : ReflTransGen g.Calls x y) : y ∈ p.entered ∧ (y ∈ s.stack → y ∉ p₀.entered) := by
  induction hpath with
  | refl => exact ⟨h.follows.stacked x hx, fun _ => hnew⟩
  | @tail y z _ hcall ih =>
      obtain ⟨hy, hnew⟩ := ih
      by_cases hout : y ∈ s.stack
      · have hz := h.called hdone hy (fun hopen => hnew hout (h.mem_entered hopen)) hcall
        refine ⟨hz, fun hmem => (h.number_le_iff hz).1 ?_⟩
        rw [h.number]
        exact hl.le y hout (hnew hout) z hmem hcall fun heq => hdone z (heq ▸ hcall)
      · refine ⟨h.called hdone hy (fun hopen => hout ?_) hcall, fun hmem => ?_⟩
        · exact h.follows.onPath y (List.mem_cons_of_mem f hopen)
        · exact absurd hmem (h.follows.shut y hy hout z hcall)

/-- The group of `f` is then what has been entered since and is on the stack. -/
theorem mutual_iff : g.Mutual f x ↔ x ∈ s.stack ∧ s.number f ≤ s.number x := by
  constructor
  · rintro ⟨hfx, hxf⟩
    obtain ⟨hx, hnew⟩ := h.new_of_reaches hl hdone h.mem_stack h.new hfx
    have hmem : x ∈ s.stack := by
      by_contra hout
      exact h.not_mem_stack_of_reaches hdone hx hout hxf h.mem_stack
    exact ⟨hmem, (h.number_le_iff hx).2 (hnew hmem)⟩
  · rintro ⟨hx, hle⟩
    have hnew := (h.number_le_iff (h.follows.stacked x hx)).1 hle
    refine ⟨h.follows.leads f List.mem_cons_self x hx hle, ?_⟩
    obtain ⟨u, hu, -, hxu⟩ := h.follows.back x hx
    rcases List.mem_cons.1 hu with rfl | hopen
    · exact hxu
    · exact absurd (h.mem_entered hopen)
        ((h.new_of_reaches hl hdone hx hnew hxu).2 (h.follows.onPath u hu))

/-- What is below `f` on the stack is called from nowhere but there. -/
theorem shut_below (hx : x ∈ p.entered) (hout : ¬ (x ∈ s.stack ∧ s.number x < s.number f))
    (hcall : g.Calls x y) : ¬ (y ∈ s.stack ∧ s.number y < s.number f) := by
  rintro ⟨hy, hlt⟩
  by_cases hold : x ∈ s.stack
  · have hle := Nat.le_of_not_lt fun hlt => hout ⟨hold, hlt⟩
    have hbound := hl.le x hold ((h.number_le_iff hx).1 hle) y hy hcall
      fun heq => hdone y (heq ▸ hcall)
    rw [← h.number] at hbound
    exact absurd hlt (Nat.not_lt.2 hbound)
  · exact h.follows.shut x hx hold y hcall hy

theorem groups_first :
    s.groups ++ [(g.group f).toList] = g.closedGroups path (p.finished ++ [f]) := by
  have hfirst : path.any (g.group f).contains = false := by
    rw [Bool.eq_false_iff, ne_eq, any_group_contains]
    rintro ⟨u, hu, hmutual⟩
    have hle := ((h.mutual_iff hl hdone).1 hmutual).2
    exact absurd (h.number_lt (h.mem_entered hu)) (Nat.not_lt.2 hle)
  rw [closedGroups_finish, hfirst, h.follows.groups]
  rfl

/-- The first function of a group closes it. -/
theorem close_first : ∃ s', s.close f = some s' ∧
    Visited g f path p₀ s₀ { p with finished := p.finished ++ [f] } s' := by
  obtain ⟨above, below, hstack, hnot, habove, hbelow⟩ := h.follows.split_stack h.mem_stack
  have hfalling := h.follows.falling
  have hmem : ∀ x, x ∈ above ++ [f] ↔ g.Mutual f x := fun x =>
    (habove x).trans (h.mutual_iff hl hdone).symm
  have hnodup : (above ++ [f]).Nodup := by
    have hall : s.stack.Nodup := hfalling.imp fun hlt heq => by simp [heq] at hlt
    rw [hstack, List.append_cons] at hall
    exact (List.nodup_append.1 hall).1
  have hsorted := mergeSort_eq_toList (t := g.group f) hnodup fun x => (hmem x).trans mem_group.symm
  have hsub : ∀ {x}, x ∈ below → x ∈ s.stack := fun hx => ((hbelow _).1 hx).1
  have honStack : ∀ x, x ∈ s.onStack \ .ofList (above ++ [f]) ↔ x ∈ below := fun x => by
    have hgroup : x ∈ (.ofList (above ++ [f]) : BlockSet) ↔ x ∈ above ++ [f] := by
      rw [Std.ExtTreeSet.mem_ofList, List.contains_iff_mem]
    rw [Std.ExtTreeSet.mem_diff_iff, h.follows.onStack, hgroup, habove, hbelow, not_and,
      Nat.not_le]
    exact ⟨fun hx => ⟨hx.1, hx.2 hx.1⟩, fun hx => ⟨hx.1, fun _ => hx.2⟩⟩
  have hrest : below.Pairwise fun x y => s.number y < s.number x := by
    rw [hstack, List.append_cons] at hfalling
    exact (List.pairwise_append.1 hfalling).2.1
  have hshut : ∀ x ∈ p.entered, x ∉ below → ∀ y, g.Calls x y → y ∉ below :=
    fun x hx hout y hcall hy => h.shut_below hl hdone hx (fun hmem => hout ((hbelow x).2 hmem))
      hcall ((hbelow y).1 hy)
  refine ⟨{ s with
    stack := below
    onStack := s.onStack \ .ofList (above ++ [f])
    groups := s.groups ++ [(g.group f).toList] }, ?_, { h.follows with
    finished := h.finished
    onStack := honStack
    stacked := fun x hx => h.follows.stacked x (hsub hx)
    falling := hrest
    onPath := fun x hx => (hbelow x).2
      ⟨h.follows.onPath x (List.mem_cons_of_mem f hx), h.number_lt (h.mem_entered hx)⟩
    pathFalling := (List.pairwise_cons.1 h.follows.pathFalling).2
    called := fun x hx hout y => h.called hdone hx hout
    shut := hshut
    leads := fun u hu x hx => h.follows.leads u (List.mem_cons_of_mem f hu) x (hsub hx)
    back := fun x hx => h.back_below (hsub hx) ((hbelow x).1 hx).2
    groups := h.groups_first hl hdone }, { h.keeps with
    stack := fun x hx => ?_ }, h.follows.stacked f h.mem_stack, s₀.count, hl.low,
    .inl h.number.le, fun x hx hfresh => ?_⟩
  · rw [close, hl.low, h.index, hstack, popTo_append hnot, ← hsorted]
    exact if_pos rfl
  · rw [hbelow, h.keeps.stack x hx]
    exact ⟨And.left, fun hmem => ⟨hmem, h.number_lt hx⟩⟩
  · have hle := (h.number_le_iff (h.follows.stacked x (hsub hx))).2 hfresh
    exact absurd ((hbelow x).1 hx).2 (Nat.not_lt.2 hle)

end First

/-- A function that leads back to a lower number stays on the stack. -/
theorem close_later (h : Scans g f path p₀ s₀ done p s) (hl : Bounds g f p₀ done l s)
    (hlt : l < s₀.count) (hdone : ∀ c, g.Calls f c → c ∈ done) : ∃ s', s.close f = some s' ∧
      Visited g f path p₀ s₀ { p with finished := p.finished ++ [f] } s' := by
  have hf := h.mem_stack
  -- something open that was entered earlier is in the group
  obtain ⟨x, hx, hnumber, hfx⟩ := hl.reached
  obtain ⟨u, hu, hle, hxu⟩ := h.follows.back x hx
  have huf : s.number u < s.number f := by
    rw [h.number]
    omega
  replace hu : u ∈ path := by
    refine (List.mem_cons.1 hu).resolve_left ?_
    rintro rfl
    exact lt_irrefl _ huf
  have hfu := hfx.trans hxu
  have hback : ∀ y ∈ s.stack, ∃ w ∈ path, s.number w ≤ s.number y ∧ ReflTransGen g.Calls y w := by
    intro y hy
    obtain ⟨w, hw, hle, hyw⟩ := h.follows.back y hy
    rcases List.mem_cons.1 hw with rfl | hw
    · exact ⟨u, hu, huf.le.trans hle, hyw.trans hfu⟩
    · exact ⟨w, hw, hle, hyw⟩
  have hgroups : s.groups = g.closedGroups path (p.finished ++ [f]) := by
    have hmutual : g.Mutual f u :=
      ⟨hfu, h.follows.leads u (List.mem_cons_of_mem f hu) f hf huf.le⟩
    rw [closedGroups_finish, if_pos (any_group_contains.2 ⟨u, hu, hmutual⟩), List.append_nil]
    exact h.follows.groups
  refine ⟨s, ?_, { h.follows with
    finished := h.finished
    onPath := fun y hy => h.follows.onPath y (List.mem_cons_of_mem f hy)
    pathFalling := (List.pairwise_cons.1 h.follows.pathFalling).2
    called := fun y hy hout z => h.called hdone hy hout
    leads := fun y hy => h.follows.leads y (List.mem_cons_of_mem f hy)
    back := hback
    groups := hgroups }, { h.keeps with }, h.follows.stacked f hf, l, hl.low,
    .inr ⟨x, hx, hnumber, hfx⟩, fun y hy hnew z hz hcall => ?_⟩
  · rw [close, hl.low, h.index]
    exact if_neg hlt.ne
  · exact hl.le y hy hnew z hz hcall fun heq => hdone z (heq ▸ hcall)

theorem push (h : Follows g path p s) (hf : f ∉ p.entered)
    (hleads : ∀ u ∈ path, ReflTransGen g.Calls u f) :
    Scans g f path p s [] { p with entered := p.entered.insert f } (s.push f) ∧
      Bounds g f p [] s.count (s.push f) := by
  have hne : ∀ {x}, x ∈ p.entered → x ≠ f := fun hx heq => hf (heq ▸ hx)
  have hself : (s.push f).number f = s.count := by rw [number_push, if_pos rfl]
  refine ⟨⟨h, hf, h.push hf hleads, ?_, ?_, fun c hc => (List.not_mem_nil hc).elim⟩, ?_⟩
  · refine ⟨Nat.le_succ _, fun x hx => mem_insert.2 (.inr hx), fun x hx hnew => ?_, fun x hx => ?_,
      fun x hx => ?_, fun x hx => ?_⟩
    · obtain rfl := (mem_insert.1 hx).resolve_right hnew
      exact hself.ge
    · rw [index_push, if_neg (hne hx)]
    · simp [Search.push, Std.ExtTreeMap.getElem?_insert, Ne.symm (hne hx)]
    · exact List.mem_cons.trans (or_iff_right (hne hx))
  · rw [index_push, if_pos rfl]
  · refine ⟨Std.ExtTreeMap.getElem?_insert_self, hself.ge, ⟨f, List.mem_cons_self, hself, .refl⟩,
      fun x hx hnew y _ _ hy => ?_⟩
    have hxf := (List.mem_cons.1 hx).resolve_right fun hx => hnew (h.stacked x hx)
    exact (List.not_mem_nil (hy hxf)).elim

theorem leadBack_eq (hlow : s.low[f]? = some l) (n : Nat) :
    s.leadBack f (some n) = some { s with low := s.low.insert f (min l n) } := by
  rw [leadBack, hlow]
  rfl

theorem cons (h : Scans g f path p₀ s₀ done p s) {c : BlockId} (hc : c ∈ p.entered) :
    Scans g f path p₀ s₀ (c :: done) p s :=
  ⟨h.start, h.new, h.follows, h.keeps, h.index, List.forall_mem_cons.2 ⟨hc, h.done⟩⟩

/-- The function is known to lead back to another number. -/
theorem insert_low (h : Scans g f path p₀ s₀ done p s) (n : Nat) :
    Scans g f path p₀ s₀ done p { s with low := s.low.insert f n } where
  start := h.start
  new := h.new
  follows := { h.follows with }
  keeps := { h.keeps with
    low := fun x hx => by
      have hne : f ≠ x := fun heq => h.new (heq ▸ hx)
      rw [← h.keeps.low x hx, Std.ExtTreeMap.getElem?_insert, if_neg (by simpa using hne)] }
  index := h.index
  done := h.done

/-- A call of something that leads back to `n` makes for a lower bound. -/
theorem exists_leadBack (h : Scans g f path p₀ s₀ done p s) {c : BlockId} (hc : c ∈ p.entered)
    (hlow : s.low[f]? = some l) (hself : l ≤ s.number f)
    (hreached : ∃ x ∈ s.stack, s.number x = l ∧ ReflTransGen g.Calls f x) {n : Nat}
    (hn : n < l → ∃ x ∈ s.stack, s.number x = n ∧ ReflTransGen g.Calls f x)
    (hle : ∀ x ∈ s.stack, x ∉ p₀.entered → ∀ y ∈ s.stack, g.Calls x y →
      (x = f → y ∈ c :: done) → min l n ≤ s.number y) :
    ∃ s' l', s.leadBack f (some n) = some s' ∧ Scans g f path p₀ s₀ (c :: done) p s' ∧
      Bounds g f p₀ (c :: done) l' s' := by
  refine ⟨_, min l n, leadBack_eq hlow n, (h.cons hc).insert_low _,
    Std.ExtTreeMap.getElem?_insert_self, (Nat.min_le_left _ _).trans hself, ?_, hle⟩
  rcases Nat.lt_or_ge n l with hlt | hge
  · rw [Nat.min_eq_right hlt.le]
    exact hn hlt
  · rw [Nat.min_eq_left hge]
    exact hreached

/-- A call of a function that has been entered leads back to its number, if it is on the stack. -/
theorem step_entered (h : Scans g f path p₀ s₀ done p s) (hl : Bounds g f p₀ done l s)
    {c : BlockId} (hcall : g.Calls f c) (hc : c ∈ p.entered) :
    ∃ s' l', (if s.onStack.contains c then s.leadBack f s.index[c]? else some s) = some s' ∧
      Scans g f path p₀ s₀ (c :: done) p s' ∧ Bounds g f p₀ (c :: done) l' s' := by
  have hle : ∀ x ∈ s.stack, x ∉ p₀.entered → ∀ y ∈ s.stack, g.Calls x y →
      (x = f → y ∈ c :: done) → l ≤ s.number y ∨ y = c := by
    intro x hx hnew y hy hxy hdone
    by_cases hyc : y = c
    · exact .inr hyc
    · refine .inl (hl.le x hx hnew y hy hxy fun hxf => ?_)
      exact (List.mem_cons.1 (hdone hxf)).resolve_left hyc
  by_cases hstack : c ∈ s.stack
  · have hindex : s.index[c]? = some (s.number c) := by
      obtain ⟨n, hn⟩ := Option.isSome_iff_exists.1
        (Std.ExtTreeMap.mem_iff_isSome_getElem?.1 ((h.follows.entered c).2 hc))
      rw [Search.number, hn]
      rfl
    rw [if_pos (Std.ExtTreeSet.contains_iff_mem.2 ((h.follows.onStack c).2 hstack)), hindex]
    refine h.exists_leadBack hc hl.low hl.leSelf hl.reached
      (fun _ => ⟨c, hstack, rfl, .single hcall⟩) fun x hx hnew y hy hxy hdone => ?_
    rcases hle x hx hnew y hy hxy hdone with hle | rfl
    · exact (Nat.min_le_left _ _).trans hle
    · exact Nat.min_le_right _ _
  · have hout : ¬ s.onStack.contains c := fun hmem =>
      hstack ((h.follows.onStack c).1 (Std.ExtTreeSet.contains_iff_mem.1 hmem))
    rw [if_neg hout]
    refine ⟨s, l, rfl, h.cons hc, hl.low, hl.leSelf, hl.reached,
      fun x hx hnew y hy hxy hdone => (hle x hx hnew y hy hxy hdone).resolve_right ?_⟩
    rintro rfl
    exact hstack hy

/-- A call of a function that is entered for it leads back to what that one leads back to. -/
theorem step_new (h : Scans g f path p₀ s₀ done p s) (hl : Bounds g f p₀ done l s) {c : BlockId}
    (hcall : g.Calls f c) (hc : c ∉ p.entered) (hv : Visited g c (f :: path) p s p' s') :
    ∃ s'' l', s'.leadBack f s'.low[c]? = some s'' ∧
      Scans g f path p₀ s₀ (c :: done) p' s'' ∧ Bounds g f p₀ (c :: done) l' s'' := by
  have hf := h.follows.stacked f h.mem_stack
  have hnumber : s'.number f = s.number f := hv.keeps.number hf
  have hscans : Scans g f path p₀ s₀ done p' s' :=
    ⟨h.start, h.new, hv.follows, h.keeps.trans hv.keeps,
      (hv.keeps.index f hf).trans h.index, fun x hx => hv.keeps.entered x (h.done x hx)⟩
  have hlater : s.number f < s'.number c :=
    (h.follows.lt f hf).trans_le (hv.keeps.fresh c hv.entered hc)
  obtain ⟨n, hn, hreached, hle⟩ := hv.low
  rw [hn]
  refine hscans.exists_leadBack hv.entered ((hv.keeps.low f hf).trans hl.low)
    (hnumber ▸ hl.leSelf) ?_ (fun hlt => ?_) fun x hx hnew y hy hxy hdone => ?_
  · obtain ⟨x, hx, hxl, hfx⟩ := hl.reached
    have hentered := h.follows.stacked x hx
    exact ⟨x, (hv.keeps.stack x hentered).2 hx, (hv.keeps.number hentered).trans hxl, hfx⟩
  · obtain ⟨x, hx, hxn, hcx⟩ := hreached.resolve_left fun hle => by
      have := hl.leSelf
      omega
    exact ⟨x, hx, hxn, hcx.head hcall⟩
  -- what was there before the visit is bounded by `l`, and what came with it by `n`
  · by_cases hold : x ∈ p.entered
    · have hxstack := (hv.keeps.stack x hold).1 hx
      refine (Nat.min_le_left _ _).trans ?_
      by_cases hyc : y = c
      · have := hl.leSelf
        rw [hyc]
        omega
      · have hy' : y ∈ p.entered := by
          by_cases hxf : x = f
          · exact h.done y ((List.mem_cons.1 (hdone hxf)).resolve_left hyc)
          · have hclosed : x ∉ f :: path := List.mem_cons.not.2
              (not_or.2 ⟨hxf, fun hopen => hnew (h.mem_entered hopen)⟩)
            exact h.follows.called x hold hclosed y hxy
        rw [hv.keeps.number hy']
        exact hl.le x hxstack hnew y ((hv.keeps.stack y hy').1 hy) hxy fun hxf =>
          (List.mem_cons.1 (hdone hxf)).resolve_left hyc
    · exact (Nat.min_le_right _ _).trans (hle x hx hold y hy hxy)

/-- All calls are looked through, one after the other. -/
theorem exists_foldlM_eq (h : Scans g f path p₀ s₀ done p s) (hl : Bounds g f p₀ done l s)
    {follow : Search → BlockId → Option Search} {enter : Progress → BlockId → Progress}
    (hstep : ∀ {done l p s c}, Scans g f path p₀ s₀ done p s → Bounds g f p₀ done l s →
      g.Calls f c → ∃ s' l', follow s c = some s' ∧
        Scans g f path p₀ s₀ (c :: done) (enter p c) s' ∧ Bounds g f p₀ (c :: done) l' s')
    {cs : List BlockId} (hcs : ∀ c ∈ cs, g.Calls f c) :
    ∃ s' done' l', cs.foldlM follow s = some s' ∧
      Scans g f path p₀ s₀ done' (cs.foldl enter p) s' ∧ Bounds g f p₀ done' l' s' ∧
      (∀ c ∈ cs, c ∈ done') ∧ ∀ c ∈ done, c ∈ done' := by
  induction cs generalizing done l p s with
  | nil => exact ⟨s, done, l, rfl, h, hl, fun c hc => (List.not_mem_nil hc).elim, fun _ => id⟩
  | cons c cs ih =>
      rw [List.forall_mem_cons] at hcs
      obtain ⟨s₁, l₁, hfirst, h₁, hl₁⟩ := hstep h hl hcs.1
      obtain ⟨s₂, done', l₂, hrest, h₂, hl₂, hmem, hold⟩ := ih h₁ hl₁ hcs.2
      rw [List.forall_mem_cons] at hold
      refine ⟨s₂, done', l₂, ?_, h₂, hl₂, List.forall_mem_cons.2 ⟨hold.1, hmem⟩, hold.2⟩
      rw [List.foldlM_cons, hfirst]
      exact hrest

end Scans

end Search

open Search

theorem enter_of_mem {fuel : Nat} (hf : f ∈ p.entered) : g.enter fuel p f = p := by
  cases fuel with
  | zero => rfl
  | succ fuel => exact if_pos (Std.ExtTreeSet.contains_iff_mem.2 hf)

/-- The search goes the way in which functions are entered, and finds every number that it looks
up. -/
theorem exists_visit_eq {n fuel : Nat} (hn : fuel ≤ n) (h : Follows g path p s)
    (hf : f ∉ p.entered) (hleads : ∀ u ∈ path, ReflTransGen g.Calls u f)
    (hfuel : (unseen g.functions.toFinset p.entered).card < fuel) :
    ∃ s', g.visit n s f = some s' ∧ Visited g f path p s (g.enter fuel p f) s' := by
  induction fuel generalizing n p s f path with
  | zero => exact (Nat.not_lt_zero _ hfuel).elim
  | succ fuel ih =>
      obtain ⟨n, rfl⟩ := Nat.exists_eq_add_of_lt hn
      rw [visit, enter, if_neg (fun hmem => hf (Std.ExtTreeSet.contains_iff_mem.1 hmem))]
      generalize hfollow : (fun (s : Search) c => do
        if ! s.index.contains c then
          let s ← g.visit (fuel + n) s c
          s.leadBack f s.low[c]?
        else if s.onStack.contains c then s.leadBack f s.index[c]?
        else return s) = follow
      have hstep : ∀ {done l p' s' c}, Scans g f path p s done p' s' → Bounds g f p done l s' →
          g.Calls f c → ∃ s'' l', follow s' c = some s'' ∧
            Scans g f path p s (c :: done) (g.enter fuel p' c) s'' ∧
            Bounds g f p (c :: done) l' s'' := by
        intro done l p' s' c hscans hbounds hcall
        subst hfollow
        by_cases hc : c ∈ p'.entered
        · rw [enter_of_mem hc]
          have hindex : s'.index.contains c := Std.ExtTreeMap.contains_iff_mem.2
            ((hscans.follows.entered c).2 hc)
          simp only [hindex, Bool.not_true, Bool.false_eq_true, if_false]
          exact hscans.step_entered hbounds hcall hc
        · have hindex : s'.index.contains c = false := Bool.eq_false_iff.2 fun hmem =>
            hc ((hscans.follows.entered c).1 (Std.ExtTreeMap.contains_iff_mem.1 hmem))
          have hpath : ∀ u ∈ f :: path, ReflTransGen g.Calls u c :=
            List.forall_mem_cons.2 ⟨.single hcall, fun u hu => (hleads u hu).tail hcall⟩
          -- a function that calls others has an entry, so one less is left to enter
          have hless : (unseen g.functions.toFinset p'.entered).card < fuel := by
            have hlt := unseen_insert_lt (List.mem_toFinset.2 (mem_functions_of_calls hcall)) hf
            have hle : ∀ x ∈ p.entered.insert f, x ∈ p'.entered := fun x hx => by
              rcases mem_insert.1 hx with rfl | hx
              · exact hscans.follows.stacked x hscans.mem_stack
              · exact hscans.keeps.entered x hx
            exact (unseen_mono hle).trans_lt (hlt.trans_le (Nat.le_of_lt_succ hfuel))
          obtain ⟨s₁, hrun, hv⟩ :=
            ih (Nat.le_add_right fuel n) hscans.follows hc hpath hless
          simp only [hindex, Bool.not_false, if_true, hrun]
          exact hscans.step_new hbounds hcall hc hv
      -- `low` ends at the number of `f` or below it, and `close` asks which
      obtain ⟨hscans, hbounds⟩ := Scans.push h hf hleads
      obtain ⟨s', done, l, hrun, hscans, hbounds, hdone, -⟩ := hscans.exists_foldlM_eq hbounds
        hstep fun c hc => Std.ExtTreeSet.mem_toList.1 hc
      rw [hrun]
      have hcalled : ∀ c, g.Calls f c → c ∈ done := fun c hc =>
        hdone c (Std.ExtTreeSet.mem_toList.2 hc)
      have hle := hscans.number ▸ hbounds.leSelf
      rcases hle.lt_or_eq with hlt | rfl
      · exact hscans.close_later hbounds hlt hcalled
      · exact hscans.close_first hbounds hcalled

theorem exists_foldlM_visit_eq {n fuel : Nat} (hn : fuel ≤ n) (fs : List BlockId)
    (h : Follows g [] p s) (hfuel : (unseen g.functions.toFinset p.entered).card < fuel) :
    ∃ s', fs.foldlM (fun s f => if s.index.contains f then some s else g.visit n s f) s =
      some s' ∧ Follows g [] (fs.foldl (g.enter fuel) p) s' := by
  induction fs generalizing p s with
  | nil => exact ⟨s, rfl, h⟩
  | cons f fs ih =>
      rw [List.foldlM_cons, List.foldl_cons]
      by_cases hf : f ∈ p.entered
      · rw [if_pos (Std.ExtTreeMap.contains_iff_mem.2 ((h.entered f).2 hf)), enter_of_mem hf]
        exact ih h hfuel
      · obtain ⟨s', hrun, hv⟩ :=
          exists_visit_eq hn h hf (fun u hu => (List.not_mem_nil hu).elim) hfuel
        rw [if_neg fun hmem => hf ((h.entered f).1 (Std.ExtTreeMap.contains_iff_mem.1 hmem)), hrun]
        exact ih hv.follows ((unseen_mono hv.keeps.entered).trans_lt hfuel)

/-- The search has an outcome, which is all groups with callees first. -/
theorem searchGroups_eq (g : CallGraph) : g.searchGroups = some g.groups := by
  have hstart : Follows g [] ⟨∅, []⟩ .empty := by
    constructor <;> simp [Search.empty, closedGroups]
  have hcard : (unseen g.functions.toFinset ∅).card < g.calls.size + 1 := by
    refine Nat.lt_succ_of_le (Nat.le_trans (Finset.card_filter_le _ _) ?_)
    rw [← Std.ExtTreeMap.length_keys]
    exact List.toFinset_card_le _
  refine unbounded_eq (k := g.calls.size + 1) fun n => ?_
  obtain ⟨s, hrun, hs⟩ :=
    exists_foldlM_visit_eq (Nat.le_add_left (g.calls.size + 1) n) g.functions hstart hcard
  have hgroups : s.groups = g.groups := by
    rw [hs.groups, closedGroups_nil]
    rfl
  rw [← hgroups]
  exact congrArg (· >>= fun s : Search => some s.groups) hrun

end Plugboard.CallGraph
