import Plugboard.Proofs.Outcome

/-!
# Inference of one tree

Whether or not a type is expected of a tree, what is inferred for it is kept, or there is a warning.
-/

namespace Plugboard

/-- What is inferred for a tree, whether or not a type is expected of it. -/
def Lowered.inference (env : Env) (root : BlockId) (l : Lowered) : Option Ty → InferM Subst
  | some t => l.inferAs env root t .empty
  | none => l.inferSection env

namespace WorkspaceM

/-- Types that were found are kept, and an error becomes a warning. -/
def conclude (root : BlockId) : Except TypeError Subst × List (Tag × Ty) → WorkspaceM Unit
  | (.ok s, notes) => annotate (InferM.resolve s notes)
  | (.error e, _) => warn root e

/-- What is inferred for a root once it has been lowered. -/
def inferLowered (env : Env) (root : BlockId) (expected : Option Ty) :
    Except Fault Lowered → WorkspaceM Unit
  | .ok l => runInference (l.inference env root expected) >>= conclude root
  | .error e => warn root (.structural e)

theorem inferTree_eq_inferLowered (env : Env) (root : BlockId) (expected : Option Ty) :
    inferTree env root expected =
      get >>= fun ws => inferLowered env root expected (ws.main.lower root) := by
  rw [inferTree]
  refine bind_congr fun ws => ?_
  cases ws.main.lower root with
  | error e => rfl
  | ok l =>
      rw [inferLowered]
      cases expected <;> exact bind_congr fun found => by obtain ⟨e | s, notes⟩ := found <;> rfl

/-- What is found for a tree is kept, or there is a warning. -/
theorem ends_inferTree_iff {ws : Workspace} {env : Env} {root : BlockId} {l : Lowered}
    (hlower : ws.main.lower root = .ok l) {expected : Option Ty} {Q : Unit → Workspace → Prop}
    {E : Workspace → Prop} :
    Ends (inferTree env root expected) ws Q E ↔
      match (l.inference env root expected).run (InferM.ofPool ws.pool) with
      | (.ok s, st) => Ends (annotate (InferM.resolve s st.notes)) { ws with pool := st.pool } Q E
      | (.error e, st) => Ends (warn root e) { ws with pool := st.pool } Q E := by
  rw [inferTree_eq_inferLowered, ends_bind, ends_get, hlower, inferLowered, ends_bind,
    ends_runInference]
  rcases hrun : (l.inference env root expected).run (InferM.ofPool ws.pool) with ⟨e | s, st⟩ <;>
    rw [show StateT.run (l.inference env root expected) _ = _ from hrun] <;> rfl

/-- A tree that cannot be lowered gets a warning. -/
theorem ends_inferTree_unlowered {ws : Workspace} {env : Env} {root : BlockId} {e : Fault}
    (hlower : ws.main.lower root = .error e) {expected : Option Ty} {Q : Unit → Workspace → Prop}
    {E : Workspace → Prop} :
    Ends (inferTree env root expected) ws Q E ↔ Ends (warn root (.structural e)) ws Q E := by
  rw [inferTree_eq_inferLowered, ends_bind, ends_get, hlower, inferLowered]

end WorkspaceM

end Plugboard
