import Plugboard.Proofs.Accounting
import Plugboard.Proofs.Coherence
import Plugboard.Proofs.Connecting

/-!
# Live type variables

A type variable that occurs on a canvas is in use, so that it is not handed out for anything
else, and a collection leaves nothing else in use.
-/

namespace Plugboard

/-- A literal or a declaration that the command adds is ground. -/
def Command.AddsGround (_ : Workspace) : Command → Prop
  | .add _ kind => kind.Ground
  | _ => True

/-- The count of a sweep that was made. -/
def Reply.census? : Reply → Option Census
  | .swept census => census
  | _ => none

namespace BlockKind

theorem ground_of_editComprehension {f : List String → Nat → Except String (List String × Nat)}
    {kind kind' : BlockKind} (h : editComprehension f kind = .ok kind') : kind'.Ground := by
  cases kind with
  | comprehension vars guards =>
      obtain ⟨_, -, h⟩ := bind_eq_ok.1 h
      cases h
      exact trivial
  | _ => cases h

theorem ground_of_setItems {items : Nat} {kind kind' : BlockKind}
    (h : setItems items kind = .ok kind') : kind'.Ground := by
  cases kind <;> cases h
  exact trivial

end BlockKind

namespace Workspace

/-- The variable is on a socket or on a type parameter of one of the canvases. -/
def Occurs (ws : Workspace) (v : String) : Prop :=
  ∃ canvas t, v ∈ t.vars ∧ ((∃ s, (ws.graph canvas).tyAt s = some t) ∨
    ∃ b name, (ws.graph canvas).paramAt b name = some t)

/-- Just the variables that occur are in use, and `census` has counted them. -/
structure Swept (census : Census) (ws : Workspace) : Prop where
  accounted : ws.Accounted ws.pool
  isUsed_iff : ∀ v, ws.pool.isUsed v ↔ ws.Occurs v
  live : ∃ names : Finset String, (∀ v, v ∈ names ↔ ws.Occurs v) ∧ census.live = names.card

/-- What a command leads to: a sweep, or no more than allocations. -/
def Accounts (pool : VarPool) (reply : Reply) (ws : Workspace) : Prop :=
  match reply.census? with
  | none => ws.Accounted pool
  | some census => ws.Swept census

variable {ws : Workspace} {pool : VarPool} {v : String}

theorem Accounted.isUsed_of_occurs (h : ws.Accounted pool) (hv : ws.Occurs v) :
    ws.pool.isUsed v := by
  obtain ⟨canvas, t, hv, ⟨s, hs⟩ | ⟨b, name, hb⟩⟩ := hv
  · obtain ⟨socket, hsocket, ht⟩ := Option.bind_eq_some_iff.1 hs
    obtain ⟨t', ht', hover⟩ := (h.every canvas).socket hsocket
    cases ht'.symm.trans ht
    exact hover v hv
  · obtain ⟨block, hblock, ht⟩ := Option.bind_eq_some_iff.1 hb
    exact (h.every canvas).param hblock ht v hv

theorem mem_types_iff {g : Graph} {t : Ty} :
    t ∈ g.types ↔ (∃ s, g.tyAt s = some t) ∨ ∃ b name, g.paramAt b name = some t := by
  simp only [Graph.types, List.mem_append, List.mem_filterMap, List.mem_flatMap, mem_values_iff,
    Graph.tyAt, Graph.paramAt, Option.bind_eq_some_iff]
  constructor
  · rintro (⟨socket, ⟨s, hs⟩, ht⟩ | ⟨block, ⟨b, hb⟩, name, ht⟩)
    · exact .inl ⟨s, socket, hs, ht⟩
    · exact .inr ⟨b, name, block, hb, ht⟩
  · rintro (⟨s, socket, hs, ht⟩ | ⟨b, name, block, hb, ht⟩)
    · exact .inl ⟨socket, ⟨s, hs⟩, ht⟩
    · exact .inr ⟨block, ⟨b, hb⟩, name, ht⟩

theorem occurs_iff : ws.Occurs v ↔ ∃ t ∈ ws.main.types ++ ws.flyout.types, v ∈ t.vars := by
  simp only [Occurs, ← mem_types_iff, List.mem_append]
  constructor
  · rintro ⟨canvas, t, hv, ht⟩
    cases canvas with
    | main => exact ⟨t, .inl ht, hv⟩
    | flyout => exact ⟨t, .inr ht, hv⟩
  · rintro ⟨t, ht | ht, hv⟩
    · exact ⟨.main, t, hv, ht⟩
    · exact ⟨.flyout, t, hv, ht⟩

theorem isUsed_collect_iff (h : ws.pool.Distinct) :
    ws.collect.pool.isUsed v ↔ ws.collect.Occurs v :=
  (VarPool.isUsed_collect h _ v).trans occurs_iff.symm

theorem Accounted.swept_collect (h : ws.Accounted pool) :
    ws.collect.Swept ws.collect.pool.census := by
  have hpool : ws.collect.pool.Distinct := h.distinct.collect _
  have hused : ∀ v, ws.collect.pool.isUsed v ↔ ws.collect.Occurs v := fun v =>
    isUsed_collect_iff h.distinct
  refine ⟨⟨.refl _, hpool, fun canvas => ?_⟩, hused, ?_⟩
  · -- what is on a canvas occurs, and so it is still in use
    have hover : ∀ {t : Ty}, ((∃ s, (ws.graph canvas).tyAt s = some t) ∨
        ∃ b name, (ws.graph canvas).paramAt b name = some t) → t.Over ws.collect.pool.Uses :=
      fun ht v hv => (hused v).2 ⟨canvas, _, hv, ht⟩
    refine ⟨fun {s socket} hs => ?_, fun {b block name t} hb ht => ?_, (h.every canvas).kind⟩
    · obtain ⟨t, ht, -⟩ := (h.every canvas).socket hs
      exact ⟨t, ht, hover (.inl ⟨s, Option.bind_eq_some_iff.2 ⟨socket, hs, ht⟩⟩)⟩
    · exact hover (.inr ⟨b, name, Option.bind_eq_some_iff.2 ⟨block, hb, ht⟩⟩)
  · refine ⟨((ws.main.types ++ ws.flyout.types).flatMap Ty.vars).toFinset, fun v => ?_, ?_⟩
    · rw [List.mem_toFinset, List.mem_flatMap]
      exact occurs_iff.symm
    · refine VarPool.usedCount_eq_card hpool fun v => ?_
      rw [List.mem_toFinset, List.mem_flatMap, hused]
      exact occurs_iff.symm

end Workspace

namespace WorkspaceM

open Workspace

/-- A command that does not sweep the pool only allocates from it. -/
theorem accounted_perform {ws : Workspace} {pool : VarPool} (h : ws.Accounted pool)
    {command : Command} (hallowed : command.AddsGround ws) :
    Ends (perform command) ws (Accounts pool) (Accounted pool) := by
  -- the reply to a command other than a sweep tells of none
  have hmap : ∀ {α : Type} {x : WorkspaceM α} {f : α → Reply}, (∀ a, (f a).census? = none) →
      Preserves (Accounted pool) x → Ends (f <$> x) ws (Accounts pool) (Accounted pool) :=
    fun hf hx => ends_map.2 <| (hx ws h).imp
      (fun a _ hws' => by rw [Accounts, hf]; exact hws') fun _ => id
  cases command with
  | add canvas kind => exact hmap (fun _ => rfl) (accounted_addBlock canvas hallowed)
  | addOperator name => exact hmap (fun _ => rfl) (accounted_addOperator name)
  | addCase typeName => exact hmap (fun _ => rfl) (accounted_addCase typeName)
  | remove b => exact hmap (fun _ => rfl) (accounted_removeBlock b)
  | connect a b => exact hmap (fun _ => rfl) (accounted_connect a b)
  | plug child parent slot => exact hmap (fun _ => rfl) (accounted_plug child parent slot)
  | unplug parent child => exact hmap (fun _ => rfl) (accounted_unplug parent child)
  | infer => exact hmap (fun _ => rfl) accounted_infer
  | renameParameter b old new => exact hmap (fun _ => rfl) (accounted_renameParameter b old new)
  | addParameter b name => exact hmap (fun _ => rfl) (accounted_addParameter b name)
  | removeParameter b name => exact hmap (fun _ => rfl) (accounted_removeParameter b name)
  | addGenerator b name =>
      exact hmap (fun _ => rfl) (accounted_edit b fun _ _ => BlockKind.ground_of_editComprehension)
  | removeGenerator b name =>
      exact hmap (fun _ => rfl) (accounted_edit b fun _ _ => BlockKind.ground_of_editComprehension)
  | addGuard b =>
      exact hmap (fun _ => rfl) (accounted_edit b fun _ _ => BlockKind.ground_of_editComprehension)
  | removeGuard b =>
      exact hmap (fun _ => rfl) (accounted_edit b fun _ _ => BlockKind.ground_of_editComprehension)
  | setItems b items =>
      exact hmap (fun _ => rfl) (accounted_edit b fun _ _ => BlockKind.ground_of_setItems)
  | allocate => exact h.extend (.allocate ws.pool)
  | collect => exact h.swept_collect
  | requestSweep => exact h.requestSweep
  | poll now =>
      simp only [perform, poll, ends_map, ends_modifyGet]
      by_cases hdue : ws.sweep.isDue now
      · rw [show ws.pollSweep now = (true, ws.collect) from if_pos hdue]
        exact h.swept_collect
      · rw [show ws.pollSweep now = (false, ws) from if_neg hdue]
        exact h
  | wait millis => exact ⟨h.extended, h.distinct, h.every⟩
  | takeRenders => exact ⟨h.extended, h.distinct, h.every⟩

end WorkspaceM

namespace Workspace

variable {ws : Workspace}

theorem Reachable.accounted (h : ws.Reachable Command.AddsGround) : ws.Accounted ws.pool := by
  induction h with
  | start settings =>
      refine ⟨.refl _, VarPool.distinct_withColour _, fun canvas => ?_⟩
      cases canvas <;> exact .empty _ _
  | @after ws command _ hallowed ih =>
      have hsame : ∀ {ws' : Workspace}, ws'.Accounted ws.pool → ws'.Accounted ws'.pool :=
        fun h => ⟨.refl _, h.distinct, h.every⟩
      refine ((WorkspaceM.accounted_perform ih hallowed).imp (fun reply ws' hws' => ?_)
        fun _ => hsame).state
      unfold Accounts at hws'
      split at hws'
      · exact hsame hws'
      · exact hws'.accounted

/-- The variables on the canvases are never handed out again. -/
structure KeepsLive (ws : Workspace) : Prop where
  isUsed : ∀ v, ws.Occurs v → ws.pool.isUsed v
  /-- However many names are allocated, none of them occurs. -/
  unissued : ∀ names pool, ws.pool.Allocates names pool → ∀ v ∈ names, ¬ ws.Occurs v
  /-- A command that does not sweep the pool does nothing else to it than allocate. -/
  allocates : ∀ command : Command, command.AddsGround ws →
    (∀ census, (ws.perform command).1 ≠ .ok (.swept (some census))) →
    ∃ names, ws.pool.Allocates names (ws.after command).pool
  /-- A sweep leaves in use what occurs, and counts it. -/
  swept : ∀ command : Command, command.AddsGround ws → ∀ census,
    (ws.perform command).1 = .ok (.swept (some census)) →
    (∀ v, (ws.after command).pool.isUsed v ↔ (ws.after command).Occurs v) ∧
      ∃ names : Finset String, (∀ v, v ∈ names ↔ (ws.after command).Occurs v) ∧
        census.live = names.card
  /-- A collection is a sweep. -/
  collects : ∃ census, (ws.perform .collect).1 = .ok (.swept (some census))

theorem Reachable.keepsLive (h : ws.Reachable Command.AddsGround) : ws.KeepsLive where
  isUsed _ := h.accounted.isUsed_of_occurs
  unissued names pool hnames v hv hoccurs :=
    hnames.not_isUsed h.accounted.distinct v hv (h.accounted.isUsed_of_occurs hoccurs)
  allocates command hallowed hreply := by
    have hends := WorkspaceM.accounted_perform h.accounted hallowed
    rw [Workspace.after]
    rw [perform] at hreply ⊢
    unfold Ends at hends
    generalize (WorkspaceM.perform command).run ws = out at hends hreply ⊢
    obtain ⟨e | reply, ws'⟩ := out
    · exact hends.extended
    · have hnone : reply.census? = none := by
        cases reply with
        | swept census? =>
            cases census? with
            | none => rfl
            | some census => exact (hreply census rfl).elim
        | _ => rfl
      simp only [Accounts, hnone] at hends
      exact hends.extended
  swept command hallowed census hreply := by
    have hends := WorkspaceM.accounted_perform h.accounted hallowed
    rw [Workspace.after]
    rw [perform] at hreply ⊢
    unfold Ends at hends
    generalize (WorkspaceM.perform command).run ws = out at hends hreply ⊢
    obtain ⟨r, ws'⟩ := out
    cases hreply
    exact ⟨hends.isUsed_iff, hends.live⟩
  collects := ⟨_, rfl⟩

/-- A name is taken from the pool, a block gets one more item, and the pool is swept. -/
theorem keepsLive_after_collect :
    ([.add .main (.list 1), .allocate, .setItems ⟨0⟩ 2, .collect, .add .flyout (.lambda "x")].foldl
      after (ofSettings default)).KeepsLive :=
  Reachable.keepsLive ((Reachable.start default).foldl
    (by simp [Command.AddsGround, BlockKind.Ground]))

end Workspace

end Plugboard
