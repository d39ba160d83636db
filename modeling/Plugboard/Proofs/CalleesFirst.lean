import Plugboard.Proofs.CallGroups
import Plugboard.Proofs.Exploration

/-!
# Callees come first

When a function is finished, all that it calls is finished too, or still open; and what is open
then reaches the function. So by the time at which the last member of a group is finished all that
the group reaches is, and the groups that it calls have been listed.
-/

namespace Plugboard.CallGraph

open Relation Plugboard.Graph

variable {g : CallGraph} {f x y : BlockId} {p p' : Progress} {fuel : Nat}

/-- The function has been entered and is not finished yet. -/
def Progress.Open (p : Progress) (f : BlockId) : Prop := f ∈ p.entered ∧ f ∉ p.finished

theorem Advances.open (h : Advances p p') (hx : p'.Open x) : p.Open x :=
  ⟨(h.finishes x hx.1).resolve_right hx.2, fun hfinished => hx.2 (h.finished x hfinished)⟩

/-- What finished functions call has been entered, and at the time when a function was finished
everything called until then was finished or led to that function. -/
structure Ordered (g : CallGraph) (p : Progress) : Prop where
  nodup : p.finished.Nodup
  entered : ∀ x ∈ p.finished, x ∈ p.entered
  called : ∀ x ∈ p.finished, ∀ y, g.Calls x y → y ∈ p.entered
  leads : ∀ {before x after}, p.finished = before ++ x :: after → ∀ y ∈ before ++ [x], ∀ z,
    g.Calls y z → z ∈ before ++ [x] ∨ ReflTransGen g.Calls z x

namespace Ordered

theorem insert (h : g.Ordered p) (f : BlockId) :
    g.Ordered { p with entered := p.entered.insert f } where
  nodup := h.nodup
  entered x hx := mem_insert.2 (.inr (h.entered x hx))
  called x hx y hy := mem_insert.2 (.inr (h.called x hx y hy))
  leads := h.leads

/-- An open function that all other open ones lead to can be finished when what it calls has been
entered. -/
theorem finish (h : g.Ordered p) (hf : p.Open f) (hcalled : ∀ y, g.Calls f y → y ∈ p.entered)
    (hopen : ∀ x, p.Open x → ReflTransGen g.Calls x f) :
    g.Ordered { p with finished := p.finished ++ [f] } := by
  have hcalls : ∀ y ∈ p.finished ++ [f], ∀ z, g.Calls y z → z ∈ p.entered := by
    intro y hy z hz
    rcases List.mem_append.1 hy with hy | hy
    · exact h.called y hy z hz
    · exact hcalled z (List.mem_singleton.1 hy ▸ hz)
  refine ⟨?_, fun x hx => ?_, hcalls, fun {before x after} hsplit => ?_⟩
  · exact List.nodup_append.2 ⟨h.nodup, List.nodup_singleton f, fun y hy z hz heq =>
      hf.2 (List.mem_singleton.1 hz ▸ heq ▸ hy)⟩
  · rcases List.mem_append.1 hx with hx | hx
    · exact h.entered x hx
    · exact List.mem_singleton.1 hx ▸ hf.1
  · rcases List.eq_nil_or_concat after with rfl | ⟨after, last, rfl⟩
    · obtain ⟨rfl, rfl⟩ : p.finished = before ∧ f = x := by simpa using hsplit
      intro y hy z hz
      by_cases hz' : z ∈ p.finished
      · exact .inl (List.mem_append_left _ hz')
      · exact .inr (hopen z ⟨hcalls y hy z hz, hz'⟩)
    · rw [List.concat_eq_append, ← List.cons_append, ← List.append_assoc] at hsplit
      exact h.leads (List.append_inj' hsplit rfl).1

/-- Functions that everything open leads to are entered one after the other. -/
theorem foldl (henter : ∀ {p f}, g.Ordered p → (∀ x, p.Open x → ReflTransGen g.Calls x f) →
      (unseen g.functions.toFinset p.entered).card < fuel →
      g.Ordered (g.enter fuel p f) ∧ ∀ x, p.Open x → (g.enter fuel p f).Open x)
    (fs : List BlockId) (hp : g.Ordered p)
    (hopen : ∀ x, p.Open x → ∀ f ∈ fs, ReflTransGen g.Calls x f)
    (hfuel : ∀ f ∈ fs, (unseen g.functions.toFinset p.entered).card < fuel) :
    g.Ordered (fs.foldl (g.enter fuel) p) ∧
      (∀ x, p.Open x → (fs.foldl (g.enter fuel) p).Open x) ∧
      ∀ f ∈ fs, f ∈ (fs.foldl (g.enter fuel) p).entered := by
  induction fs generalizing p with
  | nil => exact ⟨hp, fun _ => id, fun f hf => (List.not_mem_nil hf).elim⟩
  | cons f fs ih =>
      have hfirst := hfuel f List.mem_cons_self
      obtain ⟨hordered, hstays⟩ := henter hp (fun x hx => hopen x hx f List.mem_cons_self) hfirst
      have hadvances := advances_enter (g := g) fuel p f
      obtain ⟨hordered', hstays', hentered⟩ := ih hordered
        (fun x hx f' hf' => hopen x (hadvances.open hx) f' (List.mem_cons_of_mem f hf'))
        (fun _ _ => Nat.lt_of_le_of_lt (unseen_mono hadvances.entered) hfirst)
      refine ⟨hordered', fun x hx => hstays' x (hstays x hx), fun f' hf' => ?_⟩
      rcases List.mem_cons.1 hf' with rfl | hf'
      · cases fuel with
        | zero => exact (Nat.not_lt_zero _ hfirst).elim
        | succ fuel =>
            exact (advances_foldl (advances_enter (fuel + 1)) fs _).entered f'
              (mem_entered_enter fuel p f')
      · exact hentered f' hf'

theorem enter (fuel : Nat) (hp : g.Ordered p)
    (hopen : ∀ x, p.Open x → ReflTransGen g.Calls x f)
    (hfuel : (unseen g.functions.toFinset p.entered).card < fuel) :
    g.Ordered (g.enter fuel p f) ∧ ∀ x, p.Open x → (g.enter fuel p f).Open x := by
  induction fuel generalizing p f with
  | zero => exact (Nat.not_lt_zero _ hfuel).elim
  | succ fuel ih =>
      rw [CallGraph.enter]
      split
      · exact ⟨hp, fun _ => id⟩
      · rename_i hcontains
        have hnew : f ∉ p.entered := fun h => hcontains (Std.ExtTreeSet.contains_iff_mem.2 h)
        have hf : Progress.Open { p with entered := p.entered.insert f } f :=
          ⟨mem_insert.2 (.inl rfl), fun h => hnew (hp.entered f h)⟩
        have hleads : ∀ x, Progress.Open { p with entered := p.entered.insert f } x →
            ReflTransGen g.Calls x f := by
          rintro x ⟨hx, hopen'⟩
          rcases mem_insert.1 hx with rfl | hx
          · exact .refl
          · exact hopen x ⟨hx, hopen'⟩
        -- a function that calls others has an entry, so one less is left to enter
        obtain ⟨hbelow, hstays, hcalled⟩ := foldl ih (g.callees f).toList (hp.insert f)
          (fun x hx c hc => (hleads x hx).tail (Std.ExtTreeSet.mem_toList.1 hc)) fun c hc => by
            have hcalls : g.Calls f c := Std.ExtTreeSet.mem_toList.1 hc
            have hless := unseen_insert_lt
              (List.mem_toFinset.2 (mem_functions_of_calls hcalls)) hnew
            exact Nat.lt_of_lt_of_le hless (Nat.le_of_lt_succ hfuel)
        have hadvances := advances_foldl (advances_enter (g := g) fuel) (g.callees f).toList
          { p with entered := p.entered.insert f }
        refine ⟨hbelow.finish (hstays f hf)
          (fun y hy => hcalled y (Std.ExtTreeSet.mem_toList.2 hy))
          fun x hx => hleads x (hadvances.open hx), fun x hx => ?_⟩
        obtain ⟨hentered, hopen'⟩ := hstays x ⟨mem_insert.2 (.inr hx.1), hx.2⟩
        refine ⟨hentered, fun hmem => ?_⟩
        rcases List.mem_append.1 hmem with hmem | hmem
        · exact hopen' hmem
        · exact hnew (List.mem_singleton.1 hmem ▸ hx.1)

end Ordered

theorem exists_ordered_finishOrder (g : CallGraph) :
    ∃ p, g.Ordered p ∧ p.finished = g.finishOrder := by
  have hcard : (unseen g.functions.toFinset ∅).card < g.calls.size + 1 := by
    refine Nat.lt_succ_of_le (Nat.le_trans (Finset.card_filter_le _ _) ?_)
    rw [← Std.ExtTreeMap.length_keys]
    exact List.toFinset_card_le _
  have hstart : g.Ordered ⟨∅, []⟩ :=
    ⟨List.nodup_nil, by simp, by simp, fun hsplit => by simp at hsplit⟩
  have hopen : ∀ x, ¬ Progress.Open ⟨∅, []⟩ x := fun x hx => Std.ExtTreeSet.not_mem_empty hx.1
  exact ⟨_, (Ordered.foldl (Ordered.enter _) _ hstart (fun x hx => (hopen x hx).elim)
    fun _ _ => hcard).1, rfl⟩

theorem nodup_finishOrder (g : CallGraph) : g.finishOrder.Nodup := by
  obtain ⟨p, hp, heq⟩ := exists_ordered_finishOrder g
  exact heq ▸ hp.nodup

/-- All that a group reaches is finished when the last member is. -/
theorem finished_of_reaches {before after : List BlockId}
    (hsplit : g.finishOrder = before ++ x :: after) (hlast : ∀ y ∈ after, ¬ g.Mutual x y)
    (hpath : ReflTransGen g.Calls x y) : y ∈ before ++ [x] := by
  obtain ⟨p, hp, heq⟩ := exists_ordered_finishOrder g
  induction hpath with
  | refl => exact List.mem_append_right _ (List.mem_singleton_self x)
  | @tail y z hpath hcalls ih =>
      refine (hp.leads (heq.trans hsplit) y ih z hcalls).elim id fun hback => ?_
      rcases ReflTransGen.cases_head hback with rfl | ⟨w, hw, -⟩
      · exact List.mem_append_right _ (List.mem_singleton_self _)
      · have hz := mem_finishOrder (mem_functions_of_calls hw)
        rw [hsplit, List.append_cons] at hz
        exact (List.mem_append.1 hz).resolve_right fun hafter =>
          hlast z hafter ⟨hpath.tail hcalls, hback⟩

/-- A group is listed at its last member. Of what stands before that member some belongs to groups
whose last member comes later, and the groups of the rest have been listed. -/
theorem exists_last_of_groupsAlong {fs members : List BlockId} {before after : List (List BlockId)}
    (h : g.groupsAlong fs = before ++ members :: after) :
    ∃ earlier x later, fs = earlier ++ x :: later ∧ members = (g.group x).toList ∧
      (∀ y ∈ later, ¬ g.Mutual x y) ∧ ∀ y ∈ earlier, (∃ y' ∈ x :: later, g.Mutual y y') ∨
        ∃ f, g.Mutual f y ∧ (g.group f).toList ∈ before := by
  induction fs generalizing before with
  | nil => simp [groupsAlong] at h
  | cons first rest ih =>
      rw [groupsAlong] at h
      split at h
      · rename_i hlater
        obtain ⟨earlier, x, later, rfl, hmembers, hlast, hearlier⟩ := ih h
        refine ⟨first :: earlier, x, later, rfl, hmembers, hlast, List.forall_mem_cons.2
          ⟨?_, hearlier⟩⟩
        obtain ⟨y, hy, hmem⟩ := List.any_eq_true.1 hlater
        have hmutual : g.Mutual first y := mem_group.1 (Std.ExtTreeSet.contains_iff_mem.1 hmem)
        rcases List.mem_append.1 hy with hy | hy
        · rcases hearlier y hy with ⟨y', hy', hmutual'⟩ | ⟨f, hf, hgroup⟩
          · exact .inl ⟨y', hy', hmutual.trans hmutual'⟩
          · exact .inr ⟨f, hf.trans hmutual.symm, hgroup⟩
        · exact .inl ⟨y, hy, hmutual⟩
      · rename_i hlater
        have hlast : ∀ y ∈ rest, ¬ g.Mutual first y := fun y hy hmutual =>
          hlater (List.any_eq_true.2 ⟨y, hy, Std.ExtTreeSet.contains_iff_mem.2
            (mem_group.2 hmutual)⟩)
        cases before with
        | nil =>
            obtain ⟨rfl, -⟩ := List.cons.inj h
            exact ⟨[], first, rest, rfl, rfl, hlast, fun y hy => (List.not_mem_nil hy).elim⟩
        | cons group before =>
            rw [List.cons_append] at h
            obtain ⟨rfl, hrest⟩ := List.cons.inj h
            obtain ⟨earlier, x, later, rfl, hmembers, hlast', hearlier⟩ := ih hrest
            refine ⟨first :: earlier, x, later, rfl, hmembers, hlast', List.forall_mem_cons.2
              ⟨.inr ⟨first, ⟨.refl, .refl⟩, List.mem_cons_self⟩, fun y hy => ?_⟩⟩
            exact (hearlier y hy).imp_right
              (Exists.imp fun f hf => ⟨hf.1, List.mem_cons_of_mem _ hf.2⟩)

/-- What a function reaches is in its own group or in one that is listed before. -/
theorem mem_or_exists_earlier {members : List BlockId} {before after : List (List BlockId)}
    (h : g.groups = before ++ members :: after) (hf : f ∈ members)
    (hpath : ReflTransGen g.Calls f y) : y ∈ members ∨ ∃ earlier ∈ before, y ∈ earlier := by
  obtain ⟨earlier, x, later, hsplit, rfl, hlast, hearlier⟩ := exists_last_of_groupsAlong h
  rw [Std.ExtTreeSet.mem_toList, mem_group] at hf ⊢
  have hreach := hf.1.trans hpath
  rcases List.mem_append.1 (finished_of_reaches hsplit hlast hreach) with hy | hy
  · rcases hearlier y hy with ⟨y', hy', hmutual⟩ | ⟨f', hf', hgroup⟩
    · rcases List.mem_cons.1 hy' with rfl | hy'
      · exact .inl hmutual.symm
      · -- the group of `y` would have a member after the end of all that `x` reaches
        have hfinished := finished_of_reaches hsplit hlast (hreach.trans hmutual.1)
        have hnodup := nodup_finishOrder g
        rw [hsplit, List.append_cons] at hnodup
        exact ((List.nodup_append.1 hnodup).2.2 y' hfinished y' hy' rfl).elim
    · exact .inr ⟨_, hgroup, Std.ExtTreeSet.mem_toList.2 (mem_group.2 hf')⟩
  · obtain rfl := List.mem_singleton.1 hy
    exact .inl ⟨.refl, .refl⟩

end Plugboard.CallGraph
