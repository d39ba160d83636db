import Plugboard.Proofs.LiveVariables
import Plugboard.Proofs.OnlyAllocating

/-!
# Names that a sweep adopts

A literal or a declaration may bring type variables along that the pool knows nothing of, and the
pool may hand these out for something else. A sweep finds what is on the canvases, whatever it comes
from. From then on it is not handed out any more for as long as it is there.
-/

namespace Plugboard

open Workspace

/-- A command sweeps the pool, or all that it does to it is to allocate. -/
theorem WorkspaceM.drawn_perform (command : Command) (ws : Workspace) :
    Ends (perform command) ws
      (fun _ ws' => ws.pool.Extended ws'.pool ∨ ws' = ws.collect)
      fun ws' => ws.pool.Extended ws'.pool := by
  have hmap : ∀ {α : Type} {x : WorkspaceM α} {f : α → Reply},
      Preserves (ws.pool.Extended ·.pool) x →
      Ends (f <$> x) ws (fun _ ws' => ws.pool.Extended ws'.pool ∨ ws' = ws.collect)
        fun ws' => ws.pool.Extended ws'.pool :=
    fun hx => ends_map.2 ((hx ws (.refl _)).imp (fun _ _ => .inl) fun _ => id)
  cases command with
  | add canvas kind => exact hmap (drawn_addBlock canvas kind)
  | addOperator name => exact hmap (drawn_addOperator name)
  | addCase typeName => exact hmap (drawn_addCase typeName)
  | remove b => exact hmap (drawn_removeBlock b)
  | connect a b => exact hmap (drawn_connect a b)
  | plug child parent slot => exact hmap (drawn_plug child parent slot)
  | unplug parent child => exact hmap (drawn_unplug parent child)
  | infer => exact hmap drawn_infer
  | renameParameter b old new => exact hmap (drawn_renameParameter b old new)
  | addParameter b name => exact hmap (drawn_addParameter b name)
  | removeParameter b name => exact hmap (drawn_removeParameter b name)
  | addGenerator b name => exact hmap (drawn_edit b _)
  | removeGenerator b name => exact hmap (drawn_edit b _)
  | addGuard b => exact hmap (drawn_edit b _)
  | removeGuard b => exact hmap (drawn_edit b _)
  | setItems b items => exact hmap (drawn_edit b _)
  | allocate => exact .inl (.allocate ws.pool)
  | collect => exact .inr rfl
  | requestSweep => exact .inl (.refl _)
  | poll now =>
      simp only [perform, poll, ends_map, ends_modifyGet]
      by_cases hdue : ws.sweep.isDue now
      · exact .inr (congrArg Prod.snd (if_pos hdue))
      · rw [show ws.pollSweep now = (false, ws) from if_neg hdue]
        exact .inl (.refl _)
  | wait millis => exact .inl (.refl _)
  | takeRenders => exact .inl (.refl _)

namespace Workspace

variable {ws : Workspace} {v : String}

theorem extended_or_swept (ws : Workspace) (command : Command) :
    ws.pool.Extended (ws.after command).pool ∨ ws.after command = ws.collect :=
  ((WorkspaceM.drawn_perform command ws).imp (fun _ _ => id) fun _ => .inl).state

theorem distinct_after (h : ws.pool.Distinct) (command : Command) :
    (ws.after command).pool.Distinct := by
  rcases ws.extended_or_swept command with hext | hswept
  · exact hext.distinct h
  · rw [hswept]
    exact h.collect _

theorem Reachable.distinct {allowed : Workspace → Command → Prop} (h : ws.Reachable allowed) :
    ws.pool.Distinct := by
  induction h with
  | start settings => exact VarPool.distinct_withColour _
  | after _ _ ih => exact distinct_after ih _

/-- No command puts a variable out of use that is on a canvas afterwards. -/
theorem isUsed_after (h : ws.pool.Distinct) (hused : ws.pool.isUsed v) {command : Command}
    (hoccurs : (ws.after command).Occurs v) : (ws.after command).pool.isUsed v := by
  rcases ws.extended_or_swept command with hext | hswept
  · exact hext.keeps h hused
  · rw [hswept] at hoccurs ⊢
    exact (isUsed_collect_iff h).2 hoccurs

/-- The name is not handed out. -/
structure Reserves (v : String) (ws : Workspace) : Prop where
  unissued : ∀ names pool, ws.pool.Allocates names pool → v ∉ names
  /-- Nor does a command make any use of it that does not sweep the pool. -/
  after : ∀ command, ws.after command = ws.collect ∨
    ∃ names, v ∉ names ∧ ws.pool.Allocates names (ws.after command).pool

theorem reserves_of_isUsed (h : ws.pool.Distinct) (hused : ws.pool.isUsed v) : ws.Reserves v := by
  have hunissued : ∀ names pool, ws.pool.Allocates names pool → v ∉ names :=
    fun names pool hnames hv => hnames.not_isUsed h v hv hused
  refine ⟨hunissued, fun command => ?_⟩
  rcases ws.extended_or_swept command with ⟨names, hnames⟩ | hswept
  · exact .inr ⟨names, hunissued names _ hnames, hnames⟩
  · exact .inl hswept

/-- A variable in use is reserved while it is on a canvas. -/
theorem reserves_of_occurs (h : ws.pool.Distinct) (hused : ws.pool.isUsed v)
    {commands : List Command}
    (hlive : ∀ done rest, commands = done ++ rest → (done.foldl after ws).Occurs v) :
    (commands.foldl after ws).Reserves v := by
  induction commands generalizing ws with
  | nil => exact reserves_of_isUsed h hused
  | cons command commands ih =>
      have hafter : (ws.after command).Occurs v := hlive [command] commands rfl
      exact ih (distinct_after h command) (isUsed_after h hused hafter) fun done rest hsplit =>
        hlive (command :: done) rest (congrArg (command :: ·) hsplit)

/-- Whatever has brought a variable, once the pool has been swept while it was on a canvas, it is
not handed out for as long as it is there. -/
theorem Reachable.adopts {allowed : Workspace → Command → Prop} (h : ws.Reachable allowed)
    {commands : List Command}
    (hlive : ∀ done rest, commands = done ++ rest →
      (done.foldl Workspace.after (ws.after .collect)).Occurs v) :
    (commands.foldl Workspace.after (ws.after .collect)).Reserves v :=
  reserves_of_occurs (distinct_after h.distinct .collect)
    ((isUsed_collect_iff h.distinct).2 (hlive [] commands rfl)) hlive

set_option maxRecDepth 4000 in
/-- Before the first sweep the variable of a literal may be handed out for another block. -/
example :
    let foreign := (ofSettings default).after (.add .main (.literal "x" (.var "A")))
    (foreign.after (.add .main (.variable "y"))).main.tyAt ⟨1⟩ = some (.var "A") ∧
      ((foreign.after .collect).after (.add .main (.variable "y"))).main.tyAt ⟨1⟩ =
        some (.var "B") := by
  cbv

end Workspace

end Plugboard
