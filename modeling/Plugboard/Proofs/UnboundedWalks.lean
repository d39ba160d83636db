import Plugboard.Proofs.CalleesBound

/-!
# Walks without a bound

The walks over a graph as loops that nothing bounds: a stack of blocks that are still to be
entered, or a recursion over what is plugged in. Such a loop has the outcome that it comes to in a
number of rounds and in any larger number, and none if it goes on for ever. The walks that note what
they have seen end on every graph, and find what the bounded ones find; the others do wherever only
finitely many blocks can be stepped down to one after the other.
-/

namespace Plugboard

open Classical in
/-- What runs of a bounded length come to from some length on, if they come to something. -/
noncomputable def unbounded {α : Type} (run : Nat → Option α) : Option α :=
  if h : ∃ a k, ∀ n, run (n + k) = some a then some h.choose else none

theorem unbounded_eq {α : Type} {run : Nat → Option α} {a : α} {k : Nat}
    (h : ∀ n, run (n + k) = some a) : unbounded run = some a := by
  have hex : ∃ a k, ∀ n, run (n + k) = some a := ⟨a, k, h⟩
  obtain ⟨l, hl⟩ := hex.choose_spec
  rw [unbounded, dif_pos hex, ← hl k, Nat.add_comm, h]

namespace Graph

open Relation

/-- A walk that may fail, and that has no outcome if it does not end. -/
abbrev Walk (α : Type) := ExceptT Fault Option α

namespace Walk

variable {α β : Type}

/-- A step that always ends. -/
def of (x : Except Fault α) : Walk α := ExceptT.mk (some x)

/-- A walk that has not ended in the rounds that it was given. -/
def unfinished : Walk α := ExceptT.mk none

/-- A walk that is given as many rounds as it takes. -/
noncomputable def ended (walk : Nat → Walk α) : Walk α :=
  ExceptT.mk (unbounded fun n => (walk n).run)

theorem ended_eq {walk : Nat → Walk α} {x : Except Fault α} {k : Nat}
    (h : ∀ n, walk (n + k) = of x) : ended walk = of x :=
  unbounded_eq h

theorem of_bind_eq {x : Except Fault α} {f : α → Walk β} {k : α → Except Fault β}
    (h : ∀ a, x = .ok a → f a = of (k a)) : (of x >>= f) = of (x >>= k) := by
  cases x with
  | error e => rfl
  | ok a => exact h a rfl

theorem of_bind_pure {x : Except Fault α} {f : α → Walk α} (h : ∀ a, f a = of (.ok a)) :
    (of x >>= f) = of x := by
  rw [of_bind_eq fun a _ => h a]
  cases x <;> rfl

theorem mapM_eq {f : α → Walk β} {k : α → Except Fault β} {xs : List α}
    (h : ∀ a ∈ xs, f a = of (k a)) : xs.mapM f = of (xs.mapM k) := by
  induction xs with
  | nil => rfl
  | cons a as ih =>
      rw [List.forall_mem_cons] at h
      rw [List.mapM_cons, List.mapM_cons, h.1, ih h.2]
      exact of_bind_eq fun _ _ => of_bind_eq fun _ _ => rfl

theorem foldlM_eq {f : β → α → Walk β} {k : β → α → Except Fault β}
    (h : ∀ b a, f b a = of (k b a)) (xs : List α) (b : β) : xs.foldlM f b = of (xs.foldlM k b) := by
  induction xs generalizing b with
  | nil => rfl
  | cons a as ih =>
      rw [List.foldlM_cons, List.foldlM_cons, h]
      exact of_bind_eq fun b' _ => ih b'

end Walk

variable {g : Graph} {b : BlockId}

section Exploring

variable {next : BlockId → Except Fault (List BlockId)} {world : Finset BlockId}

/-- Enters the blocks on a stack and all that `next` leads to from them, one in a round. -/
def exploreIn (next : BlockId → Except Fault (List BlockId)) :
    Nat → List BlockId → BlockSet → Walk BlockSet
  | 0, _, _ => .unfinished
  | _ + 1, [], seen => return seen
  | n + 1, b :: pending, seen =>
      if seen.contains b then exploreIn next n pending seen
      else do
        let following ← .of (next b)
        exploreIn next n (following.reverse ++ pending) (seen.insert b)

noncomputable def exploreFrom (next : BlockId → Except Fault (List BlockId)) (b : BlockId) :
    Walk BlockSet :=
  .ended fun n => exploreIn next n [b] ∅

/-- The block on top of the stack is entered with all that it leads to before the next one. -/
theorem exists_exploreIn_eq (hworld : ∀ {b following}, next b = .ok following → b ∈ world)
    (fuel : Nat) {seen : BlockSet} (hfuel : (unseen world seen).card < fuel) (b : BlockId) :
    ∃ k, ∀ n pending, exploreIn next (n + k) (b :: pending) seen =
      (.of (explore next fuel seen b) >>= exploreIn next n pending) := by
  induction fuel generalizing seen b with
  | zero => exact (Nat.not_lt_zero _ hfuel).elim
  | succ fuel ih =>
      -- the stack takes the place of the recursion over the list of what follows
      have hall : ∀ (bs : List BlockId) (start : BlockSet), (unseen world start).card < fuel →
          ∃ k, ∀ n pending, exploreIn next (n + k) (bs ++ pending) start =
            (.of (bs.foldlM (explore next fuel) start) >>= exploreIn next n pending) := by
        intro bs
        induction bs with
        | nil => exact fun start _ => ⟨0, fun n pending => rfl⟩
        | cons c cs ihs =>
            intro start hstart
            obtain ⟨k, hk⟩ := ih hstart c
            cases hfirst : explore next fuel start c with
            | error e =>
                refine ⟨k, fun n pending => ?_⟩
                rw [List.cons_append, hk, List.foldlM_cons, hfirst]
                rfl
            | ok mid =>
                have hkeeps := (explored_of_explore hworld fuel hstart hfirst).1.keeps
                obtain ⟨l, hl⟩ := ihs mid (Nat.lt_of_le_of_lt (unseen_mono hkeeps) hstart)
                refine ⟨l + k, fun n pending => ?_⟩
                rw [← Nat.add_assoc, List.cons_append, hk, List.foldlM_cons, hfirst]
                exact hl n pending
      rw [explore]
      by_cases hseen : seen.contains b
      · refine ⟨1, fun n pending => ?_⟩
        rw [exploreIn, if_pos hseen, if_pos hseen]
        rfl
      · cases hnext : next b with
        | error e =>
            refine ⟨1, fun n pending => ?_⟩
            rw [exploreIn, if_neg hseen, if_neg hseen, hnext]
            rfl
        | ok following =>
            have hless := unseen_insert_lt (hworld hnext)
              fun hmem => hseen (Std.ExtTreeSet.mem_iff_contains.1 hmem)
            obtain ⟨k, hk⟩ := hall following.reverse (seen.insert b) (by omega)
            refine ⟨k + 1, fun n pending => ?_⟩
            rw [← Nat.add_assoc, exploreIn, if_neg hseen, if_neg hseen, hnext]
            exact hk n pending

theorem exploreFrom_eq (hworld : ∀ {b following}, next b = .ok following → b ∈ g.world)
    (b : BlockId) : exploreFrom next b = .of (explore next g.depth ∅ b) := by
  obtain ⟨k, hk⟩ := exists_exploreIn_eq @hworld g.depth g.card_unseen_empty_lt b
  refine Walk.ended_eq (k := 1 + k) fun n => ?_
  rw [← Nat.add_assoc, hk]
  exact Walk.of_bind_pure fun _ => rfl

/-- The walk to everything below a block ends. -/
theorem exploreFrom_children (g : Graph) (b : BlockId) :
    exploreFrom g.children b = .of (g.descendants b) :=
  exploreFrom_eq mem_world_of_children b

/-- The walk to all that is plugged together with a block ends. -/
theorem exploreFrom_neighbours (g : Graph) (b : BlockId) :
    exploreFrom g.neighbours b = .of (g.component b) :=
  exploreFrom_eq (fun h => let ⟨_, hchildren, _⟩ := bind_eq_ok.1 h
    mem_world_of_children hchildren) b

/-- All blocks that are plugged together with one of `blocks`. -/
noncomputable def componentsFrom (g : Graph) (blocks : List BlockId) : Walk BlockSet :=
  blocks.foldlM (fun members b => do
    if members.contains b then return members
    else return members ∪ (← exploreFrom g.neighbours b)) ∅

theorem componentsFrom_eq (g : Graph) (blocks : List BlockId) :
    componentsFrom g blocks = .of (g.components blocks) := by
  refine Walk.foldlM_eq (fun members b => ?_) blocks ∅
  rw [exploreFrom_neighbours]
  split
  · rfl
  · exact Walk.of_bind_eq fun _ _ => rfl

end Exploring

section Climbing

/-- Follows parents until there is none, one in a round. -/
def climbIn (g : Graph) : Nat → BlockSet → BlockId → Walk BlockId
  | 0, _, _ => .unfinished
  | n + 1, seen, b => do
      match ← .of (g.parent b) with
      | none => return b
      | some parent =>
          if seen.contains b then throw (.cycle b)
          else climbIn g n (seen.insert b) parent

noncomputable def climbFrom (g : Graph) (b : BlockId) : Walk BlockId :=
  .ended fun n => climbIn g n ∅ b

theorem climbIn_eq {n fuel : Nat} (hn : fuel ≤ n) {seen : BlockSet}
    (hfuel : (unseen g.world seen).card < fuel) (b : BlockId) :
    climbIn g n seen b = .of (g.climb fuel seen b) := by
  induction fuel generalizing n seen b with
  | zero => exact (Nat.not_lt_zero _ hfuel).elim
  | succ fuel ih =>
      obtain ⟨n, rfl⟩ := Nat.exists_eq_add_of_lt hn
      rw [climbIn, climb]
      refine Walk.of_bind_eq fun parent? hparent => ?_
      cases parent? with
      | none => rfl
      | some parent =>
          dsimp only
          split
          · rfl
          · rename_i hseen
            obtain ⟨block, hblock, -⟩ := bind_eq_ok.1 hparent
            -- a block whose parent can be looked up is one of finitely many
            have hless := unseen_insert_lt (mem_world_of_block hblock)
              fun hmem => hseen (Std.ExtTreeSet.mem_iff_contains.1 hmem)
            exact ih (Nat.le_add_right fuel n) (by omega) parent

/-- The walk to the top of a tree ends. -/
theorem climbFrom_eq (g : Graph) (b : BlockId) : climbFrom g b = .of (g.rootOf b) :=
  Walk.ended_eq fun n => climbIn_eq (Nat.le_add_left g.depth n) g.card_unseen_empty_lt b

end Climbing

section Descending

/-- Walks down from `b`, to which `path` leads, and not again below what is `done`. -/
def descendIn (g : Graph) : Nat → BlockSet → BlockSet → BlockId → Walk BlockSet
  | 0, _, _, _ => .unfinished
  | n + 1, path, done, b =>
      if done.contains b then return done
      else if path.contains b then throw (.cycle b)
      else do
        let children ← .of (g.children b)
        let done ← children.foldlM (descendIn g n (path.insert b)) done
        return done.insert b

/-- Fails if there is a cycle below a block. -/
noncomputable def descendFrom (g : Graph) (root : BlockId) : Walk Unit := do
  let _ ← .ended fun n => descendIn g n ∅ ∅ root

theorem descendIn_eq {n fuel : Nat} (hn : fuel ≤ n) {path : BlockSet}
    (hfuel : (unseen g.world path).card < fuel) (done : BlockSet) (b : BlockId) :
    descendIn g n path done b = .of (g.descend fuel path done b) := by
  induction fuel generalizing n path done b with
  | zero => exact (Nat.not_lt_zero _ hfuel).elim
  | succ fuel ih =>
      obtain ⟨n, rfl⟩ := Nat.exists_eq_add_of_lt hn
      rw [descendIn, descend]
      split
      · rfl
      · split
        · rfl
        · rename_i hpath
          refine Walk.of_bind_eq fun children hchildren => ?_
          have hless := unseen_insert_lt (mem_world_of_children hchildren)
            fun hmem => hpath (Std.ExtTreeSet.mem_iff_contains.1 hmem)
          have hall := Walk.foldlM_eq (f := descendIn g (fuel + n) (path.insert b))
            fun done child => ih (Nat.le_add_right fuel n) (by omega) done child
          rw [hall]
          exact Walk.of_bind_eq fun _ _ => rfl

/-- The search for a cycle below a block ends. -/
theorem descendFrom_eq (g : Graph) (root : BlockId) :
    descendFrom g root = .of (g.checkAcyclic root) := by
  rw [descendFrom, Walk.ended_eq fun n =>
    descendIn_eq (Nat.le_add_left g.depth n) g.card_unseen_empty_lt ∅ root]
  exact Walk.of_bind_eq fun _ _ => rfl

/-- One can step down from the block finitely often only, and no step fails. -/
inductive Finite (g : Graph) : BlockId → Prop where
  | intro {b : BlockId} {children : List BlockId} (h : g.children b = .ok children)
      (hall : ∀ c ∈ children, Finite g c) : Finite g b

/-- One can step down from the block less than `n` times in a row. -/
inductive Within (g : Graph) : Nat → BlockId → Prop where
  | intro {n : Nat} {b : BlockId} {children : List BlockId} (h : g.children b = .ok children)
      (hall : ∀ c ∈ children, Within g n c) : Within g (n + 1) b

theorem Finite.not_cycle (h : g.Finite b) : ¬ TransGen (Leads g.children) b b := by
  induction h with
  | @intro b children h hall ih =>
      intro hcycle
      obtain ⟨c, ⟨found, hfound, hc⟩, hback⟩ := TransGen.head'_iff.1 hcycle
      rw [h] at hfound
      cases hfound
      refine ih c hc (TransGen.tail' hback ⟨_, h, hc⟩)

/-- The blocks that lead to a block are left behind, so where there is no way round there are not
more steps down than blocks. -/
theorem within_of {P : BlockId → Prop}
    (hstep : ∀ {b}, P b → ∃ children, g.children b = .ok children ∧ ∀ c ∈ children, P c)
    (hcycle : ∀ {b}, P b → ¬ TransGen (Leads g.children) b b) {n : Nat} {path : BlockSet}
    (hb : P b) (hpath : ∀ x ∈ path, TransGen (Leads g.children) x b)
    (hn : (unseen g.world path).card < n) : g.Within n b := by
  induction n generalizing path b with
  | zero => exact (Nat.not_lt_zero _ hn).elim
  | succ n ih =>
      obtain ⟨children, h, hall⟩ := hstep hb
      refine .intro h fun c hc => ?_
      -- `b` is put on the path, on which it was not, for it does not lead back to itself
      have hleads : Leads g.children b c := ⟨_, h, hc⟩
      have hpath' : ∀ x ∈ path.insert b, TransGen (Leads g.children) x c := fun x hx => by
        rcases mem_insert.1 hx with rfl | hx
        · exact .single hleads
        · exact (hpath x hx).tail hleads
      have hless := unseen_insert_lt (mem_world_of_children h) fun hmem => hcycle hb (hpath b hmem)
      exact ih (hall c hc) hpath' (by omega)

theorem within_depth_of {P : BlockId → Prop}
    (hstep : ∀ {b}, P b → ∃ children, g.children b = .ok children ∧ ∀ c ∈ children, P c)
    (hcycle : ∀ {b}, P b → ¬ TransGen (Leads g.children) b b) (hb : P b) : g.Within g.depth b :=
  within_of hstep hcycle hb (fun _ hx => (Std.ExtTreeSet.not_mem_empty hx).elim)
    g.card_unseen_empty_lt

theorem Finite.within_depth (h : g.Finite b) : g.Within g.depth b :=
  within_depth_of (fun | .intro h hall => ⟨_, h, hall⟩) Finite.not_cycle h

/-- In a wired graph without a cycle one can step down finitely often only. -/
theorem within_depth_of_acyclic (h : g.shape.Wired) (hacyclic : g.shape.Acyclic) {p : Ports}
    (hp : g.shape.ports b = some p) : g.Within g.depth b := by
  refine within_depth_of (P := fun b => ∃ p, g.shape.ports b = some p) (fun {b} ⟨p, hp⟩ => ?_)
    (fun {b} _ hcycle => hacyclic b ?_) ⟨p, hp⟩
  · obtain ⟨children, hchildren, -⟩ := exists_children_eq h hp
    refine ⟨children, hchildren, fun c hc => (h.ports_of_plugged (b := b) ?_).1⟩
    exact (leads_children_iff h).1 ⟨children, hchildren, hc⟩
  · have hplugged : ∀ c d, Function.swap (Leads g.children) c d → g.shape.Plugged c d :=
      fun _ _ => (leads_children_iff h).1
    exact TransGen.mono hplugged b b hcycle.swap

/-- What a descent has done is finite. -/
theorem finite_of_descend {fuel : Nat} {path done done' : BlockSet}
    (h : g.descend fuel path done b = .ok done') (hdone : ∀ x ∈ done, g.Finite x) :
    b ∈ done' ∧ (∀ x ∈ done, x ∈ done') ∧ ∀ x ∈ done', g.Finite x := by
  induction fuel generalizing path done done' b with
  | zero => cases h
  | succ fuel ih =>
      have hall : ∀ (cs : List BlockId) (done done' : BlockSet),
          cs.foldlM (g.descend fuel (path.insert b)) done = .ok done' →
          (∀ x ∈ done, g.Finite x) →
          (∀ c ∈ cs, c ∈ done') ∧ (∀ x ∈ done, x ∈ done') ∧ ∀ x ∈ done', g.Finite x := by
        intro cs
        induction cs with
        | nil =>
            intro done done' h hdone
            cases h
            exact ⟨fun c hc => (List.not_mem_nil hc).elim, fun _ => id, hdone⟩
        | cons c cs ihs =>
            intro done done' h hdone
            rw [List.foldlM_cons] at h
            obtain ⟨mid, hmid, h⟩ := bind_eq_ok.1 h
            obtain ⟨hc, hkeeps, hfinite⟩ := ih hmid hdone
            obtain ⟨hcs, hkeeps', hfinite'⟩ := ihs mid done' h hfinite
            exact ⟨List.forall_mem_cons.2 ⟨hkeeps' c hc, hcs⟩,
              fun x hx => hkeeps' x (hkeeps x hx), hfinite'⟩
      rw [descend] at h
      split at h
      · rename_i hmem
        cases h
        exact ⟨Std.ExtTreeSet.mem_iff_contains.2 hmem, fun _ => id, hdone⟩
      · split at h
        · cases h
        · obtain ⟨children, hchildren, h⟩ := bind_eq_ok.1 h
          obtain ⟨mid, hmid, h⟩ := bind_eq_ok.1 h
          cases h
          obtain ⟨hcs, hkeeps, hfinite⟩ := hall children done mid hmid hdone
          refine ⟨mem_insert.2 (.inl rfl), fun x hx => mem_insert.2 (.inr (hkeeps x hx)),
            fun x hx => ?_⟩
          rcases mem_insert.1 hx with rfl | hx
          · exact .intro hchildren fun c hc => hfinite c (hcs c hc)
          · exact hfinite x hx

/-- Where no cycle is found, there are finitely many steps down. -/
theorem finite_of_checkAcyclic (h : g.checkAcyclic b = .ok ()) : g.Finite b := by
  obtain ⟨done, hdone, -⟩ := bind_eq_ok.1 h
  obtain ⟨hb, -, hfinite⟩ := finite_of_descend hdone
    fun x hx => (Std.ExtTreeSet.not_mem_empty hx).elim
  exact hfinite b hb

end Descending

section Lowering

/-- The term of a block, put together from those of all that is plugged in. -/
def lowerIn (g : Graph) : Nat → BlockId → Walk Lowered
  | 0, _ => .unfinished
  | n + 1, b => do
      let block ← .of (g.block b)
      match block.kind.operands? with
      | none => throw (.notAnExpression b)
      | some runs =>
          let parts ← runs.mapM fun run => run.slots.mapM fun slot => do
            let s ← .of (g.inputNamed b slot)
            match ← .of (g.pluggedBlock s) with
            | some child => lowerIn g n child
            | none => return ⟨.var (holeName s) (some (.socket s)), [s]⟩
          let parts := parts.flatten
          return ⟨block.kind.assemble (.block b) (parts.map (·.term)), parts.flatMap (·.holes)⟩

noncomputable def lowerFrom (g : Graph) (b : BlockId) : Walk Lowered :=
  .ended fun n => lowerIn g n b

theorem lowerIn_eq {fuel n : Nat} (h : g.Within fuel b) (hn : fuel ≤ n) :
    lowerIn g n b = .of (g.lowerBlock fuel b) := by
  induction h generalizing n with
  | @intro fuel b children h hall ih =>
      obtain ⟨n, rfl⟩ := Nat.exists_eq_add_of_lt hn
      rw [lowerIn, lowerBlock]
      refine Walk.of_bind_eq fun block hblock => ?_
      cases block.kind.operands? with
      | none => rfl
      | some runs =>
          have hslot : ∀ slot, (do
              let s ← Walk.of (g.inputNamed b slot)
              match ← Walk.of (g.pluggedBlock s) with
              | some child => lowerIn g (fuel + n) child
              | none => return ⟨.var (holeName s) (some (.socket s)), [s]⟩) =
                Walk.of (g.lowerSlot (g.lowerBlock fuel) b slot) := fun slot => by
            refine Walk.of_bind_eq fun s hs => Walk.of_bind_eq fun child? hchild => ?_
            cases child? with
            | none => rfl
            | some child =>
                exact ih child (mem_children_of_takes h ⟨slot, s, hs, hchild⟩)
                  (Nat.le_add_right fuel n)
          have hruns : (runs.mapM fun run => run.slots.mapM fun slot => do
              let s ← Walk.of (g.inputNamed b slot)
              match ← Walk.of (g.pluggedBlock s) with
              | some child => lowerIn g (fuel + n) child
              | none => return ⟨.var (holeName s) (some (.socket s)), [s]⟩) =
                Walk.of (runs.mapM fun run => run.read (g.lowerSlot (g.lowerBlock fuel) b)) :=
            Walk.mapM_eq fun run _ => by
              rw [SlotRun.read_eq_mapM]
              exact Walk.mapM_eq fun slot _ => hslot slot
          simp only [hruns]
          exact Walk.of_bind_eq fun _ _ => rfl

theorem lowerFrom_eq {fuel : Nat} (h : g.Within fuel b) :
    lowerFrom g b = .of (g.lowerBlock fuel b) :=
  Walk.ended_eq fun n => lowerIn_eq h (Nat.le_add_left fuel n)

/-- The term of a tree, if no cycle is found in it. -/
noncomputable def lowerTree (g : Graph) (root : BlockId) : Walk Lowered := do
  descendFrom g root
  lowerFrom g root

/-- Lowering ends, for it is not tried where there is a cycle. -/
theorem lowerTree_eq (g : Graph) (root : BlockId) : lowerTree g root = .of (g.lower root) := by
  rw [lowerTree, descendFrom_eq]
  exact Walk.of_bind_eq fun _ hacyclic =>
    lowerFrom_eq (finite_of_checkAcyclic hacyclic).within_depth

end Lowering

section Uses

variable {name : String}

/-- Looks for variables of a name from the blocks on a stack down, where it is not rebound, at one
block in a round. -/
def usesIn (g : Graph) (name : String) :
    Nat → List BlockId → List BlockId → Walk (List BlockId)
  | 0, _, _ => .unfinished
  | _ + 1, [], uses => return uses
  | n + 1, b :: pending, uses => do
      let block ← .of (g.block b)
      let here := if block.kind = .variable name then [b] else []
      let following ← .of (g.childrenSeeing b name)
      usesIn g name n (following.reverse ++ pending) (uses ++ here)

noncomputable def usesFrom (g : Graph) (name : String) (b : BlockId) : Walk (List BlockId) :=
  .ended fun n => usesIn g name n [b] []

theorem mem_children_of_seeing {following seeing : List BlockId}
    (hchildren : g.children b = .ok following) (hseeing : g.childrenSeeing b name = .ok seeing)
    {c : BlockId} (hc : c ∈ seeing) : c ∈ following := by
  obtain ⟨block, hblock, hseeing⟩ := bind_eq_ok.1 hseeing
  obtain ⟨plugged, hplugged, heq⟩ := bind_eq_ok.1 hseeing
  cases heq
  obtain ⟨c?, hmem, rfl⟩ := List.mem_filterMap.1 hc
  obtain ⟨s, hs, hanswer⟩ := exists_of_mem_mapM hplugged hmem
  obtain ⟨socket, -, hanswer⟩ := bind_eq_ok.1 hanswer
  split at hanswer
  · cases hanswer
  · exact mem_children_of_input hchildren hblock hs hanswer

/-- Blocks that are each searched before the next one are searched in order. -/
theorem exists_usesIn_append {fuel : Nat} {cs : List BlockId}
    (hcs : ∀ c ∈ cs, ∃ k, ∀ n pending uses, usesIn g name (n + k) (c :: pending) uses =
      (.of (g.usesWithin name fuel c) >>= fun found => usesIn g name n pending (uses ++ found))) :
    ∃ k, ∀ n pending uses, usesIn g name (n + k) (cs ++ pending) uses =
      (.of (cs.mapM (g.usesWithin name fuel)) >>= fun below =>
        usesIn g name n pending (uses ++ below.flatten)) := by
  induction cs with
  | nil =>
      refine ⟨0, fun n pending uses => ?_⟩
      change usesIn g name n ([] ++ pending) uses = usesIn g name n pending (uses ++ [])
      rw [List.nil_append, List.append_nil]
  | cons c cs ih =>
      rw [List.forall_mem_cons] at hcs
      obtain ⟨k, hk⟩ := hcs.1
      obtain ⟨l, hl⟩ := ih hcs.2
      refine ⟨l + k, fun n pending uses => ?_⟩
      rw [← Nat.add_assoc, List.cons_append, hk, List.mapM_cons]
      cases g.usesWithin name fuel c with
      | error e => rfl
      | ok found =>
          change usesIn g name (n + l) (cs ++ pending) (uses ++ found) = _
          rw [hl]
          cases cs.mapM (g.usesWithin name fuel) with
          | error e => rfl
          | ok below =>
              change usesIn g name n pending (uses ++ found ++ below.flatten) =
                usesIn g name n pending (uses ++ (found :: below).flatten)
              rw [List.append_assoc, List.flatten_cons]

/-- The block on top of the stack is searched with all that is below it before the next one. -/
theorem exists_usesIn_eq {fuel : Nat} (h : g.Within fuel b) :
    ∃ k, ∀ n pending uses, usesIn g name (n + k) (b :: pending) uses =
      (.of (g.usesWithin name fuel b) >>= fun found =>
        usesIn g name n pending (uses ++ found)) := by
  induction h with
  | @intro fuel b children h hall ih =>
      cases hseeing : g.childrenSeeing b name with
      | error e =>
          refine ⟨1, fun n pending uses => ?_⟩
          rw [usesIn, usesWithin, hseeing]
          cases g.block b <;> rfl
      | ok seeing =>
          -- what is pushed is among the children, so the induction reaches it
          obtain ⟨k, hk⟩ := exists_usesIn_append fun c (hc : c ∈ seeing.reverse) =>
            ih c (mem_children_of_seeing h hseeing (List.mem_reverse.1 hc))
          refine ⟨k + 1, fun n pending uses => ?_⟩
          rw [← Nat.add_assoc, usesIn, usesWithin, hseeing]
          cases g.block b with
          | error e => rfl
          | ok block =>
              change usesIn g name (n + k) (seeing.reverse ++ pending) _ = _
              rw [hk]
              change _ = (.of (do
                let below ← seeing.reverse.mapM (g.usesWithin name fuel)
                return (if block.kind = .variable name then [b] else []) ++ below.flatten) >>=
                  fun found => usesIn g name n pending (uses ++ found))
              cases seeing.reverse.mapM (g.usesWithin name fuel) with
              | error e => rfl
              | ok below =>
                  change usesIn g name n pending (_ ++ _) =
                    usesIn g name n pending (uses ++ (_ ++ _))
                  rw [List.append_assoc]

/-- The search for the uses of a name ends wherever no block is below itself. -/
theorem usesFrom_eq (h : g.shape.Wired) (hacyclic : g.shape.Acyclic) (name : String)
    (b : BlockId) : usesFrom g name b = .of (g.usesOf b name) := by
  cases hb : g.blocks[b]? with
  | none =>
      have hblock : g.block b = .error (.unknownBlock b) := by rw [block, hb]
      refine Walk.ended_eq (k := 1) fun n => ?_
      rw [usesIn, usesOf, depth, usesWithin, hblock]
      rfl
  | some block =>
      have hp := shape_ports_eq_some.2 ⟨block, hb, rfl⟩
      obtain ⟨k, hk⟩ : ∃ k, ∀ n pending uses, usesIn g name (n + k) (b :: pending) uses =
          (.of (g.usesOf b name) >>= fun found => usesIn g name n pending (uses ++ found)) :=
        exists_usesIn_eq (within_depth_of_acyclic h hacyclic hp)
      refine Walk.ended_eq (k := 1 + k) fun n => ?_
      rw [← Nat.add_assoc, hk]
      exact Walk.of_bind_pure fun _ => rfl

end Uses

/-- From wherever a walk is begun, it ends, and finds what the bounded one finds. -/
structure WalksEnd (g : Graph) : Prop where
  descendants : ∀ b, exploreFrom g.children b = .of (g.descendants b)
  component : ∀ b, exploreFrom g.neighbours b = .of (g.component b)
  rootOf : ∀ b, climbFrom g b = .of (g.rootOf b)
  checkAcyclic : ∀ root, descendFrom g root = .of (g.checkAcyclic root)
  lowerBlock : ∀ b, lowerFrom g b = .of (g.lowerBlock g.depth b)
  usesOf : ∀ b name, usesFrom g name b = .of (g.usesOf b name)

theorem walksEnd_of_acyclic (h : g.shape.Wired) (hacyclic : g.shape.Acyclic) : g.WalksEnd where
  descendants := exploreFrom_children g
  component := exploreFrom_neighbours g
  rootOf := climbFrom_eq g
  checkAcyclic := descendFrom_eq g
  lowerBlock b := by
    cases hb : g.blocks[b]? with
    | none =>
        have hblock : g.block b = .error (.unknownBlock b) := by rw [block, hb]
        refine Walk.ended_eq (k := 1) fun n => ?_
        rw [lowerIn, depth, Graph.lowerBlock, hblock]
        rfl
    | some block =>
        have hp := shape_ports_eq_some.2 ⟨block, hb, rfl⟩
        exact lowerFrom_eq (within_depth_of_acyclic h hacyclic hp)
  usesOf b name := usesFrom_eq h hacyclic name b

end Graph

end Plugboard
