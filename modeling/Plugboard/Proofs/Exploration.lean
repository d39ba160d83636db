import Mathlib.Data.Finset.Card
import Mathlib.Logic.Relation
import Plugboard.Proofs.Outcome

/-!
# What a walk finds

A walk over a finite set of blocks that no step leaves finds exactly what can be reached, and
the depth that walks are given is enough for it: every call enters a block that was not seen
before, so fewer blocks are left unseen than there are calls to spare.
-/

namespace Plugboard.Graph

open Relation

/-- A step of a walk. -/
def Leads (next : BlockId → Except Fault (List BlockId)) (b b' : BlockId) : Prop :=
  ∃ following, next b = .ok following ∧ b' ∈ following

/-- No step from a block of `world` fails or leaves `world`. -/
def Confines (world : Finset BlockId) (next : BlockId → Except Fault (List BlockId)) : Prop :=
  ∀ b ∈ world, ∃ following, next b = .ok following ∧ ∀ b' ∈ following, b' ∈ world

/-- The blocks of `world` that have not been seen. -/
def unseen (world : Finset BlockId) (seen : BlockSet) : Finset BlockId :=
  world.filter (· ∉ seen)

theorem unseen_mono {world : Finset BlockId} {seen seen' : BlockSet}
    (h : ∀ b ∈ seen, b ∈ seen') : (unseen world seen').card ≤ (unseen world seen).card :=
  Finset.card_le_card (Finset.monotone_filter_right world fun b _ hb hs => hb (h b hs))

theorem mem_insert {seen : BlockSet} {b x : BlockId} : x ∈ seen.insert b ↔ x = b ∨ x ∈ seen := by
  rw [Std.ExtTreeSet.mem_insert, Std.compare_eq_iff_eq, eq_comm]

theorem unseen_insert_lt {world : Finset BlockId} {seen : BlockSet} {b : BlockId}
    (hb : b ∈ world) (hnew : b ∉ seen) :
    (unseen world (seen.insert b)).card < (unseen world seen).card := by
  refine Finset.card_lt_card ⟨fun x hx => ?_, fun hsub => ?_⟩
  · have hx := Finset.mem_filter.1 hx
    exact Finset.mem_filter.2 ⟨hx.1, fun hs => hx.2 (mem_insert.2 (.inr hs))⟩
  · have hmem := hsub (Finset.mem_filter.2 ⟨hb, hnew⟩)
    exact (Finset.mem_filter.1 hmem).2 (mem_insert.2 (.inl rfl))

/-- What has been seen before and after everything that some blocks lead to has been entered. -/
structure Explored (next : BlockId → Except Fault (List BlockId)) (starts : List BlockId)
    (seen seen' : BlockSet) : Prop where
  keeps : ∀ x ∈ seen, x ∈ seen'
  enters : ∀ b ∈ starts, b ∈ seen'
  reached : ∀ x ∈ seen', x ∈ seen ∨ ∃ b ∈ starts, ReflTransGen (Leads next) b x
  closed : ∀ x ∈ seen', x ∉ seen → ∀ y, Leads next x y → y ∈ seen'

namespace Explored

variable {next : BlockId → Except Fault (List BlockId)}

theorem nil (seen : BlockSet) : Explored next [] seen seen where
  keeps _ := id
  enters b hb := by cases hb
  reached _ hx := .inl hx
  closed _ hx hnew := (hnew hx).elim

theorem cons {b : BlockId} {bs : List BlockId} {seen mid seen' : BlockSet}
    (h : Explored next [b] seen mid) (hs : Explored next bs mid seen') :
    Explored next (b :: bs) seen seen' where
  keeps x hx := hs.keeps x (h.keeps x hx)
  enters x hx := by
    rcases List.mem_cons.1 hx with rfl | hx
    · exact hs.keeps x (h.enters x List.mem_cons_self)
    · exact hs.enters x hx
  reached x hx := by
    rcases hs.reached x hx with hmid | ⟨c, hc, hpath⟩
    · rcases h.reached x hmid with hold | ⟨c, hc, hpath⟩
      · exact .inl hold
      · exact .inr ⟨c, List.mem_cons.2 (.inl (List.mem_singleton.1 hc)), hpath⟩
    · exact .inr ⟨c, List.mem_cons_of_mem b hc, hpath⟩
  closed x hx hnew y hy := by
    by_cases hmid : x ∈ mid
    · exact hs.keeps y (h.closed x hmid hnew y hy)
    · exact hs.closed x hx hmid y hy

/-- A block that is entered counts as seen before what follows it is looked at. -/
theorem enter {b : BlockId} {following : List BlockId} {seen seen' : BlockSet}
    (hnext : next b = .ok following)
    (h : Explored next following.reverse (seen.insert b) seen') : Explored next [b] seen seen' where
  keeps x hx := h.keeps x (mem_insert.2 (.inr hx))
  enters x hx := by
    obtain rfl := List.mem_singleton.1 hx
    exact h.keeps x (mem_insert.2 (.inl rfl))
  reached x hx := by
    rcases h.reached x hx with hold | ⟨c, hc, hpath⟩
    · rcases mem_insert.1 hold with rfl | hold
      · exact .inr ⟨x, List.mem_singleton.2 rfl, .refl⟩
      · exact .inl hold
    · have hstep : Leads next b c := ⟨following, hnext, List.mem_reverse.1 hc⟩
      exact .inr ⟨b, List.mem_singleton.2 rfl, hpath.head hstep⟩
  closed x hx hnew y hy := by
    by_cases hb : x = b
    · obtain ⟨following', hnext', hmem⟩ := hy
      rw [hb, hnext, Except.ok.injEq] at hnext'
      exact h.enters y (List.mem_reverse.2 (hnext' ▸ hmem))
    · exact h.closed x hx (fun hmem => (mem_insert.1 hmem).elim hb hnew) y hy

end Explored

theorem explore_explored {world : Finset BlockId} {next : BlockId → Except Fault (List BlockId)}
    (hnext : Confines world next) (fuel : Nat) {seen : BlockSet} {b : BlockId} (hb : b ∈ world)
    (hfuel : (unseen world seen).card < fuel) :
    ∃ seen', explore next fuel seen b = .ok seen' ∧ Explored next [b] seen seen' := by
  induction fuel generalizing seen b with
  | zero => exact (Nat.not_lt_zero _ hfuel).elim
  | succ fuel ih =>
      -- one block after the other, from what the ones before have seen
      have hall : ∀ (bs : List BlockId) (start : BlockSet), (∀ x ∈ bs, x ∈ world) →
          (unseen world start).card < fuel →
          ∃ seen', bs.foldlM (explore next fuel) start = .ok seen' ∧
            Explored next bs start seen' := by
        intro bs
        induction bs with
        | nil => exact fun start _ _ => ⟨start, rfl, .nil start⟩
        | cons c cs ihs =>
            intro start hworld hstart
            obtain ⟨mid, hmid, hc⟩ := ih (hworld c List.mem_cons_self) hstart
            obtain ⟨seen', hrest, hcs⟩ := ihs mid
              (fun x hx => hworld x (List.mem_cons_of_mem c hx))
              (Nat.lt_of_le_of_lt (unseen_mono hc.keeps) hstart)
            refine ⟨seen', ?_, hc.cons hcs⟩
            rw [List.foldlM_cons, hmid]
            exact hrest
      rw [explore]
      by_cases hseen : b ∈ seen
      · rw [if_pos (Std.ExtTreeSet.mem_iff_contains.1 hseen)]
        refine ⟨seen, rfl, fun _ => id, fun x hx => ?_, fun x hx => .inl hx,
          fun x hx hnew => (hnew hx).elim⟩
        exact List.mem_singleton.1 hx ▸ hseen
      · rw [if_neg fun h => hseen (Std.ExtTreeSet.mem_iff_contains.2 h)]
        obtain ⟨following, hfollowing, hworld⟩ := hnext b hb
        have hless := unseen_insert_lt hb hseen
        obtain ⟨seen', hrun, hexplored⟩ := hall following.reverse (seen.insert b)
          (fun x hx => hworld x (List.mem_reverse.1 hx)) (by omega)
        refine ⟨seen', ?_, hexplored.enter hfollowing⟩
        rw [hfollowing]
        exact hrun

/-- A walk that comes to an end has entered all that its start leads to, and no step has failed. -/
theorem explored_of_explore {world : Finset BlockId}
    {next : BlockId → Except Fault (List BlockId)}
    (hworld : ∀ {b following}, next b = .ok following → b ∈ world) (fuel : Nat)
    {seen seen' : BlockSet} {b : BlockId} (hfuel : (unseen world seen).card < fuel)
    (h : explore next fuel seen b = .ok seen') :
    Explored next [b] seen seen' ∧ ∀ x ∈ seen', x ∈ seen ∨ ∃ following, next x = .ok following := by
  induction fuel generalizing seen seen' b with
  | zero => exact (Nat.not_lt_zero _ hfuel).elim
  | succ fuel ih =>
      have hall : ∀ (bs : List BlockId) (start seen' : BlockSet),
          (unseen world start).card < fuel → bs.foldlM (explore next fuel) start = .ok seen' →
          Explored next bs start seen' ∧
            ∀ x ∈ seen', x ∈ start ∨ ∃ following, next x = .ok following := by
        intro bs
        induction bs with
        | nil =>
            intro start seen' _ h
            cases h
            exact ⟨.nil start, fun _ => .inl⟩
        | cons c cs ihs =>
            intro start seen' hstart h
            rw [List.foldlM_cons] at h
            obtain ⟨mid, hmid, h⟩ := bind_eq_ok.1 h
            obtain ⟨hc, hfirst⟩ := ih hstart hmid
            obtain ⟨hcs, hrest⟩ := ihs mid seen'
              (Nat.lt_of_le_of_lt (unseen_mono hc.keeps) hstart) h
            exact ⟨hc.cons hcs, fun x hx => (hrest x hx).elim (hfirst x) .inr⟩
      rw [explore] at h
      split at h
      · rename_i hseen
        cases h
        refine ⟨⟨fun _ => id, fun x hx => ?_, fun x hx => .inl hx, fun x hx hnew => (hnew hx).elim⟩,
          fun x hx => .inl hx⟩
        exact List.mem_singleton.1 hx ▸ Std.ExtTreeSet.mem_iff_contains.2 hseen
      · rename_i hseen
        obtain ⟨following, hfollowing, h⟩ := bind_eq_ok.1 h
        have hless := unseen_insert_lt (hworld hfollowing)
          fun hmem => hseen (Std.ExtTreeSet.mem_iff_contains.1 hmem)
        obtain ⟨hexplored, hok⟩ := hall following.reverse (seen.insert b) seen' (by omega) h
        refine ⟨hexplored.enter hfollowing, fun x hx => ?_⟩
        rcases hok x hx with hx | hok
        · rcases mem_insert.1 hx with rfl | hx
          · exact .inr ⟨following, hfollowing⟩
          · exact .inl hx
        · exact .inr hok

/-- From nothing seen, a walk finds what its start leads to and nothing else. -/
theorem exists_explore_eq {world : Finset BlockId}
    {next : BlockId → Except Fault (List BlockId)} (hnext : Confines world next) {fuel : Nat}
    {b : BlockId} (hb : b ∈ world) (hfuel : world.card < fuel) :
    ∃ found, explore next fuel ∅ b = .ok found ∧
      ∀ x, x ∈ found ↔ ReflTransGen (Leads next) b x := by
  have hcard : (unseen world ∅).card < fuel :=
    Nat.lt_of_le_of_lt (Finset.card_filter_le _ _) hfuel
  obtain ⟨found, hrun, h⟩ := explore_explored hnext fuel hb hcard
  refine ⟨found, hrun, fun x => ⟨fun hx => ?_, fun hpath => ?_⟩⟩
  · rcases h.reached x hx with hold | ⟨c, hc, hpath⟩
    · exact (Std.ExtTreeSet.not_mem_empty hold).elim
    · exact List.mem_singleton.1 hc ▸ hpath
  · induction hpath with
    | refl => exact h.enters b (List.mem_singleton.2 rfl)
    | tail _ hstep ih => exact h.closed _ ih Std.ExtTreeSet.not_mem_empty _ hstep

end Plugboard.Graph
