import Plugboard.Proofs.Contents

/-!
# Actions that leave the shape alone

Types and warnings are put on blocks without a change of what is plugged in where: both canvases
have the shape that they had, and every socket has a type if it had one before.
-/

namespace Plugboard

/-- A property of the shape of a graph in which every socket has a type. -/
def Graph.Shaped (Q : Shape → Prop) (g : Graph) : Prop := Q g.shape ∧ g.Typed

/-- A property of graphs that outlasts the types that are put on sockets and blocks. -/
structure Graph.Durable (P : Graph → Prop) : Prop where
  modifySocket : ∀ {g : Graph} (s : SocketId) (t : Ty), P g →
    P (g.modifySocket s fun socket => { socket with ty := some t })
  modifyBlock : ∀ {g : Graph} (b : BlockId) {f : Block → Block}, (∀ block,
    (f block).kind = block.kind ∧ (f block).output = block.output ∧
      (f block).inputs = block.inputs) → P g → P (g.modifyBlock b f)
  applyTo : ∀ {g : Graph} (s : Subst) (members : BlockSet), P g → P (g.applyTo s members)

namespace Graph

theorem durable_shape (Q : Shape → Prop) : Durable fun g => Q g.shape where
  modifySocket {g} s t hg := by
    have hshape : (g.modifySocket s fun socket => { socket with ty := some t }).shape = g.shape :=
      shape_modifySocket fun _ => ⟨rfl, rfl, rfl⟩
    exact hshape.symm ▸ hg
  modifyBlock {g} b f hf hg := (shape_modifyBlock (g := g) (b := b) hf).symm ▸ hg
  applyTo {g} s members hg := (shape_applyTo (g := g) s members).symm ▸ hg

theorem durable_shaped (Q : Shape → Prop) : Durable (Shaped Q) where
  modifySocket s t hg := ⟨(durable_shape Q).modifySocket s t hg.1,
    hg.2.modifySocket s fun _ _ _ _ => ⟨t, rfl, trivial⟩⟩
  modifyBlock b _ hf hg := ⟨(durable_shape Q).modifyBlock b hf hg.1,
    hg.2.modifyBlock b (fun _ _ => trivial) fun _ _ _ _ _ => trivial⟩
  applyTo s members hg := ⟨(durable_shape Q).applyTo s members hg.1,
    hg.2.applyTo (fun _ _ => trivial) members⟩

end Graph

namespace GraphM

open Plugboard.Graph

variable {P : Graph → Prop} (hP : Durable P)

include hP

theorem preserves_setTy (s : SocketId) (ty : Ty) : Preserves P (setTy s (some ty)) :=
  (preserves_ask _).bind fun _ => .modify fun _ => hP.modifySocket s ty

theorem preserves_updateBlock (b : BlockId) {f : Block → Block}
    (hf : ∀ block, (f block).kind = block.kind ∧ (f block).output = block.output ∧
      (f block).inputs = block.inputs) : Preserves P (updateBlock b f) :=
  (preserves_ask _).bind fun _ => .modify fun _ => hP.modifyBlock b hf

theorem preserves_setWarning (b : BlockId) (warning : Option String) :
    Preserves P (setWarning b warning) :=
  preserves_updateBlock hP b fun _ => ⟨rfl, rfl, rfl⟩

theorem preserves_setPlace (place : Place) (t : Ty) : Preserves P (setPlace place t) := by
  cases place with
  | socket s => exact preserves_setTy hP s t
  | param b name => exact preserves_updateBlock hP b fun _ => ⟨rfl, rfl, rfl⟩

theorem preserves_annotate (types : Std.ExtTreeMap Tag Ty) : Preserves P (annotate types) := by
  refine .bind (.mapM fun _ _ => preserves_ask _) fun placed => ?_
  refine .bind (.mapM fun _ _ => preserves_ask _) fun blocks => ?_
  refine .bind (preserves_ask _) fun members => .bind .get fun g => ?_
  refine .bind (preserves_ask _) fun s => .bind (.modify fun g => hP.applyTo s members) fun _ => ?_
  exact .bind (.forM fun _ _ => preserves_setPlace hP _ _) fun _ => .pure _

end GraphM

/-- A property of the shapes of two canvases on which every socket has a type. -/
def Workspace.Shaped (P : Shape → Shape → Prop) (ws : Workspace) : Prop :=
  P ws.main.shape ws.flyout.shape ∧ ws.main.Typed ∧ ws.flyout.Typed

namespace WorkspaceM

open Workspace

variable {α : Type} {P : Shape → Shape → Prop}

theorem preserves_query {Q : Workspace → Prop} (f : Workspace → Except Fault α) :
    Preserves Q (query f) := by
  intro ws hws
  rw [ends_query]
  cases f ws <;> exact hws

theorem preserves_ask {Q : Workspace → Prop} (f : Graph → Except Fault α) :
    Preserves Q (ask f) :=
  preserves_query _

theorem preserves_onMain {action : GraphM α}
    (h : ∀ Q : Shape → Prop, Preserves (Graph.Shaped Q) action) :
    Preserves (Shaped P) (onMain action) :=
  fun ws hws => ends_onMain.2 <|
    (h (P · ws.flyout.shape) ws.main ⟨hws.1, hws.2.1⟩).imp
      (fun _ _ hg => ⟨hg.1, hg.2, hws.2.2⟩) fun _ hg => ⟨hg.1, hg.2, hws.2.2⟩

theorem preserves_requestRender (canvas : Canvas) (blocks : BlockSet) :
    Preserves (Shaped P) (requestRender canvas blocks) :=
  .modify fun ws hws => by cases canvas <;> exact hws

theorem preserves_warn (root : BlockId) (e : TypeError) : Preserves (Shaped P) (warn root e) := by
  refine .modify fun ws hws => ?_
  have hshape : (ws.warn root e).main.shape = ws.main.shape :=
    Graph.shape_modifyBlock fun _ => ⟨rfl, rfl, rfl⟩
  have htyped : (ws.warn root e).main.Typed :=
    hws.2.1.modifyBlock _ (fun _ _ => trivial) fun _ _ _ _ _ => trivial
  refine ⟨?_, htyped, hws.2.2⟩
  change P (ws.warn root e).main.shape ws.flyout.shape
  exact hshape.symm ▸ hws.1

theorem preserves_annotate (types : Std.ExtTreeMap Tag Ty) :
    Preserves (Shaped P) (annotate types) :=
  .bind (preserves_onMain fun Q => GraphM.preserves_annotate (Graph.durable_shaped Q) types)
    fun _ => preserves_requestRender _ _

theorem preserves_total {Q : Workspace → Prop} {action : α → WorkspaceM Nat}
    (h : ∀ a, Preserves Q (action a)) (xs : List α) : Preserves Q (total action xs) :=
  .foldlM _ fun _ a _ => .bind (h a) fun _ => .pure _

section

variable {Q : Graph → Prop}

theorem main_onMain {action : GraphM α} (h : Preserves Q action) :
    Preserves (fun ws => Q ws.main) (onMain action) :=
  fun ws hws => ends_onMain.2 (h ws.main hws)

variable (hQ : Graph.Durable Q)

include hQ

theorem main_warn (root : BlockId) (e : TypeError) :
    Preserves (fun ws => Q ws.main) (warn root e) :=
  .modify fun _ => hQ.modifyBlock _ fun _ => ⟨rfl, rfl, rfl⟩

theorem main_annotate (types : Std.ExtTreeMap Tag Ty) :
    Preserves (fun ws => Q ws.main) (annotate types) :=
  .bind (main_onMain (GraphM.preserves_annotate hQ types)) fun _ => .modify fun _ => id

theorem main_clearWarnings (roots : List BlockId) :
    Preserves (fun ws => Q ws.main) (clearWarnings roots) := by
  refine .bind (.mapM fun _ _ => preserves_ask _) fun trees => .bind .get fun _ => ?_
  refine .bind (.mapM fun _ _ => preserves_ask _) fun bodies => .forM fun b _ => ?_
  exact main_onMain (GraphM.preserves_setWarning hQ b none)

theorem main_inferGroup (env : Env) (group : List BlockId) :
    Preserves (fun ws => Q ws.main) (inferGroup env group) :=
  .bind .get fun _ => .bind (.modifyGet fun _ => id) fun _ => .bind (main_annotate hQ _) fun _ =>
    .bind (.forM fun _ _ => main_warn hQ _ _) fun _ => .pure _

end

end WorkspaceM

end Plugboard
