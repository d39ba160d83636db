import Plugboard.Proofs.Rewiring
import Plugboard.Proofs.ShapeKept
import Plugboard.Proofs.UnboundedWalks

/-!
# Bare actions

An action that counts on something to be there has no outcome where it is missing, nor has one that
goes on for ever. Places of blocks and sockets are cleared by their numbers, which have to be below
the number of places. A bare action matches another one where it has the outcome of that one.
-/

namespace Plugboard

/-- Actions that may have no outcome. -/
abbrev BareM (ε σ α : Type) := ExceptT ε (StateT σ Option) α

namespace BareM

variable {ε σ α β : Type}

/-- An action that always has an outcome. -/
def of (x : ExceptT ε (StateM σ) α) : BareM ε σ α := ExceptT.mk fun s => some (x.run s)

def stuck : BareM ε σ α := ExceptT.mk fun _ => none

/-- What is looked up has to be there. -/
def found : Option α → BareM ε σ α
  | some a => pure a
  | none => stuck

/-- Reads off what a walk finds. -/
def walk (blame : Fault → ε) (f : σ → Graph.Walk α) : BareM ε σ α := do
  match ← found (f (← .of get)).run with
  | .ok a => return a
  | .error e => throw (blame e)

theorem of_pure (a : α) : (of (pure a) : BareM ε σ α) = pure a := rfl

theorem of_bind (x : ExceptT ε (StateM σ) α) (f : α → ExceptT ε (StateM σ) β) :
    of (x >>= f) = of x >>= fun a => of (f a) := by
  funext s
  change some ((ExceptT.bindCont f (x.run s).1 : StateM σ _) (x.run s).2) =
    (ExceptT.bindCont (fun a => of (f a)) (x.run s).1 : StateT σ Option _) (x.run s).2
  cases (x.run s).1 <;> rfl

theorem run_of_bind {x : ExceptT ε (StateM σ) α} {f : α → BareM ε σ β} {s s' : σ} {a : α}
    (h : x.run s = (.ok a, s')) : (of x >>= f).run s = (f a).run s' := by
  change (ExceptT.bindCont f (x.run s).1 : StateT σ Option _) (x.run s).2 = _
  rw [h]
  rfl

theorem of_map (f : α → β) (x : ExceptT ε (StateM σ) α) : of (f <$> x) = f <$> of x := by
  rw [← bind_pure_comp, ← bind_pure_comp, of_bind]
  rfl

theorem mapM_eq {f : α → BareM ε σ β} {k : α → ExceptT ε (StateM σ) β} (h : ∀ a, f a = of (k a))
    (xs : List α) : xs.mapM f = of (xs.mapM k) := by
  induction xs with
  | nil => rfl
  | cons a as ih => simp only [List.mapM_cons, h, ih, of_bind, of_pure]

theorem foldlM_eq {f : β → α → BareM ε σ β} {k : β → α → ExceptT ε (StateM σ) β}
    (h : ∀ b a, f b a = of (k b a)) (xs : List α) (b : β) :
    xs.foldlM f b = of (xs.foldlM k b) := by
  induction xs generalizing b with
  | nil => rfl
  | cons a as ih => simp only [List.foldlM_cons, h, ih, of_bind]

theorem ends_true (x : ExceptT ε (StateM σ) α) (s : σ) :
    Ends x s (fun _ _ => True) fun _ => True := by
  unfold Ends
  split <;> trivial

/-- Run where `I` holds, the bare action has the outcome of the other one, and where that succeeds
`J` holds. -/
def Matches (I : σ → Prop) (J : α → σ → Prop) (x : BareM ε σ α) (y : ExceptT ε (StateM σ) α) :
    Prop :=
  ∀ s, I s → x.run s = some (y.run s) ∧ Ends y s J fun _ => True

theorem Matches.eq_of {J : α → σ → Prop} {x : BareM ε σ α} {y : ExceptT ε (StateM σ) α}
    (h : Matches (fun _ => True) J x y) : x = of y :=
  funext fun s => (h s trivial).1

section Walk

variable {blame : Fault → ε} {f : σ → Graph.Walk α} {k : σ → Except Fault α}
  {y : ExceptT ε (StateM σ) α}

/-- A walk that ends answers a question. -/
theorem matches_walk {I : σ → Prop} (hy : ∀ s, y.run s = match k s with
      | .ok a => (.ok a, s)
      | .error e => (.error (blame e), s)) (h : ∀ s, I s → f s = .of (k s)) :
    Matches I (fun a s => I s ∧ k s = .ok a) (walk blame f) y := by
  intro s hs
  have hrun : (walk blame f).run s = (found (some (k s)) >>= fun
      | .ok a => pure a
      | .error e => throw (blame e) : BareM ε σ α).run s := by
    change (found (f s).run >>= _ : BareM ε σ α).run s = _
    rw [h s hs]
    rfl
  rw [hrun, Ends, hy]
  cases hk : k s with
  | ok a => exact ⟨rfl, hs, hk⟩
  | error e => exact ⟨rfl, trivial⟩

theorem walk_eq (hy : ∀ s, y.run s = match k s with
      | .ok a => (.ok a, s)
      | .error e => (.error (blame e), s)) (h : ∀ s, f s = .of (k s)) : walk blame f = of y :=
  (matches_walk hy fun s _ => h s).eq_of

end Walk

namespace Matches

variable {I : σ → Prop} {J : α → σ → Prop} {x : BareM ε σ α} {y : ExceptT ε (StateM σ) α}

theorem of_ends {E : σ → Prop} (h : ∀ s, I s → Ends y s J E) : Matches I J (of y) y :=
  fun s hs => ⟨rfl, (h s hs).imp (fun _ _ => id) fun _ _ => trivial⟩

theorem of_preserves (h : Preserves I y) : Matches I (fun _ => I) (of y) y := of_ends h

theorem of_eq (h : x = of y) : Matches I (fun _ _ => True) x y :=
  h ▸ of_ends fun s _ => ends_true y s

theorem with_ends {J' : α → σ → Prop} {E : σ → Prop} (h : Matches I J x y)
    (hends : ∀ s, I s → Ends y s J' E) : Matches I J' x y := fun s hs =>
  ⟨(h s hs).1, (hends s hs).imp (fun _ _ => id) fun _ _ => trivial⟩

theorem pure (a : α) : Matches I (fun _ => I) (pure a : BareM ε σ α) (pure a) :=
  of_preserves (.pure a)

theorem imp {I' : σ → Prop} {J' : α → σ → Prop} (h : Matches I J x y) (hI : ∀ s, I' s → I s)
    (hJ : ∀ a s, J a s → J' a s) : Matches I' J' x y := fun s hs =>
  (h s (hI s hs)).imp_right fun hends => hends.imp hJ fun _ => id

/-- What comes after an action has to match where that may end only. -/
theorem bind {f : α → BareM ε σ β} {k : α → ExceptT ε (StateM σ) β} {K : β → σ → Prop}
    (h : Matches I J x y) (hrest : ∀ a, Matches (J a) K (f a) (k a)) :
    Matches I K (x >>= f) (y >>= k) := by
  intro s hs
  obtain ⟨hx, hended⟩ := h s hs
  refine ⟨?_, ends_bind.2 (hended.imp (fun a s' hs' => (hrest a s' hs').2) fun _ => id)⟩
  change (x.run s >>= fun out => (ExceptT.bindCont f out.1 : StateT σ Option _) out.2) =
    some ((ExceptT.bindCont k (y.run s).1 : StateM σ _) (y.run s).2)
  rw [hx]
  unfold Ends at hended
  generalize y.run s = out at hended ⊢
  rcases out with ⟨e | a, s'⟩
  · rfl
  · exact (hrest a s' hended).1

theorem map {K : β → σ → Prop} (h : Matches I J x y) {f : α → β} (hK : ∀ a s, J a s → K (f a) s) :
    Matches I K (f <$> x) (f <$> y) := by
  rw [← bind_pure_comp, ← bind_pure_comp]
  exact h.bind fun a => of_ends (E := fun _ => True) fun s hs => hK a s hs

theorem and_preserves {P : σ → Prop} (h : Matches I J x y) (hP : Preserves P y) :
    Matches (fun s => I s ∧ P s) (fun a s => J a s ∧ P s) x y := fun s ⟨hI, hs⟩ =>
  (h s hI).imp_right fun hends => (hends.and (hP s hs)).imp (fun _ _ => id) fun _ _ => trivial

theorem ite {c : Prop} [Decidable c] {x' : BareM ε σ α} {y' : ExceptT ε (StateM σ) α}
    (h : Matches I J x y) (h' : Matches I J x' y') :
    Matches I J (if c then x else x') (if c then y else y') := by
  split
  · exact h
  · exact h'

/-- What holds wherever an action is run may be used to show that it matches. -/
theorem given {φ : Prop} (hI : ∀ s, I s → φ) (h : φ → Matches I J x y) : Matches I J x y :=
  fun s hs => h (hI s hs) s hs

/-- A loop whose invariant says what is left to do. -/
theorem mapM {f : α → BareM ε σ β} {k : α → ExceptT ε (StateM σ) β} {I : List α → σ → Prop}
    (hstep : ∀ a as, Matches (I (a :: as)) (fun _ => I as) (f a) (k a)) (xs : List α) :
    Matches (I xs) (fun _ => I []) (xs.mapM f) (xs.mapM k) := by
  induction xs with
  | nil => exact .pure []
  | cons a as ih =>
      rw [List.mapM_cons, List.mapM_cons]
      exact (hstep a as).bind fun _ => ih.bind fun _ => .pure _

theorem forM {f : α → BareM ε σ PUnit} {k : α → ExceptT ε (StateM σ) PUnit} {xs : List α}
    (hstep : ∀ a ∈ xs, Matches I (fun _ => I) (f a) (k a)) :
    Matches I (fun _ => I) (xs.forM f) (xs.forM k) := by
  induction xs with
  | nil => exact .pure _
  | cons a as ih =>
      rw [List.forall_mem_cons] at hstep
      exact hstep.1.bind fun _ => ih hstep.2

end Matches

end BareM

namespace BareGraph

open BareM Plugboard.Graph

/-- Clears the place of a socket. -/
def clearSocket (s : SocketId) : BareM Fault Graph Unit := do
  if s.index < (← .of get).nextSocket then .of (modify (·.eraseSocket s))
  else stuck

/-- Clears the place of a block. -/
def takeBlock (b : BlockId) : BareM Fault Graph Block := do
  let g ← .of get
  if b.index < g.nextBlock then
    match g.blocks[b]? with
    | none => throw (.unknownBlock b)
    | some block =>
        .of (modify fun g => { g with blocks := g.blocks.erase b })
        return block
  else stuck

def dropSocket (s : SocketId) : BareM Fault Graph (Option SocketId) := do
  let peer ← .of (GraphM.unlink s)
  clearSocket s
  return peer

def removeBlock (b : BlockId) : BareM Fault Graph Block := do
  let block ← .of (GraphM.ask (·.block b))
  (block.output.toList ++ block.inputs).forM fun s => discard (dropSocket s)
  takeBlock b

def dropInputs : List SocketId → BareM Fault Graph (List BlockId)
  | [] => return []
  | s :: rest => do
      let detached ← match ← .of (GraphM.unlink s) with
        | none => pure []
        | some peer => pure [(← .of (GraphM.ask (·.socket peer))).block]
      clearSocket s
      return detached ++ (← dropInputs rest)

def replaceOutput (b : BlockId) (old : Option SocketId) (ty : Option Ty) :
    BareM Fault Graph (Option SocketId × List BlockId) := do
  match old, ty with
  | some s, none =>
      let peer ← dropSocket s
      return (none, if peer.isSome then [b] else [])
  | old, ty => .of (GraphM.replaceOutput b old ty)

def replaceSockets (b : BlockId) (layout : Layout) : BareM Fault Graph (List BlockId) := do
  let block ← .of (GraphM.ask (·.block b))
  let old ← .of (GraphM.inputsBySlot block.inputs)
  let (inputs, leftOver) ← .of (GraphM.reuseInputs b old layout.inputs)
  let detached ← dropInputs leftOver.values
  let (output, unplugged) ← replaceOutput b block.output layout.output
  .of (GraphM.updateBlock b fun block => { block with inputs, output, params := layout.params })
  return detached ++ unplugged

noncomputable def annotate (types : Std.ExtTreeMap Tag Ty) : BareM Fault Graph BlockSet := do
  let placed ← .of (types.toList.mapM fun (tag, t) => GraphM.ask (·.places tag t))
  let blocks ← .of (placed.flatten.mapM fun (place, _) => GraphM.ask (·.placeBlock place))
  let members ← walk id (componentsFrom · blocks)
  let placed := placed.flatten ++ (← .of get).followers placed.flatten members
  let s ← .of (GraphM.ask (·.agreement placed))
  .of (modify (·.applyTo s members))
  .of (placed.forM fun (place, t) => GraphM.setPlace place (s.apply t))
  return members

theorem walk_eq {α : Type} {f : Graph → Walk α} {k : Graph → Except Fault α}
    (h : ∀ g, f g = .of (k g)) : walk id f = .of (GraphM.ask k) := by
  refine BareM.walk_eq (fun g => ?_) h
  change (ExceptT.run (match k g with | .ok a => pure a | .error e => throw e : GraphM α)) g = _
  cases k g <;> rfl

theorem annotate_eq (types : Std.ExtTreeMap Tag Ty) :
    annotate types = .of (GraphM.annotate types) := by
  simp only [annotate, GraphM.annotate, of_bind, of_pure, walk_eq fun g => componentsFrom_eq g _]

/-- Every socket has a place. -/
abbrev Placed (g : Graph) : Prop := g.shape.Bounded

theorem ends_unlink {g : Graph} (hg : Placed g) (s : SocketId) :
    Ends (GraphM.unlink s) g (fun _ g' => Placed g' ∧ s.index < g'.nextSocket) Placed := by
  cases hs : g.shape.site s with
  | some r =>
      refine (GraphM.ends_unlink hs).imp (fun peer g' ⟨_, hshape⟩ => ⟨?_, ?_⟩) fun _ => False.elim
      · rw [Placed, hshape]
        exact hg
      · change s.index < g'.shape.nextSocket
        rw [hshape]
        exact hg s r hs
  | none =>
      have hsocket : g.sockets[s]? = none := Option.map_eq_none_iff.1 hs
      simp only [GraphM.unlink, ends_bind, GraphM.ends_ask, socket, hsocket]
      exact hg

theorem matches_clearSocket (s : SocketId) :
    Matches (fun g => Placed g ∧ s.index < g.nextSocket) (fun _ => Placed) (clearSocket s)
      (modify (·.eraseSocket s)) := by
  rintro g ⟨hg, hlt⟩
  refine ⟨?_, ends_modify.2 fun x r hx => ?_⟩
  · change (if s.index < g.nextSocket then _ else stuck : BareM Fault Graph Unit).run g = _
    rw [if_pos hlt]
    rfl
  · rw [shape_eraseSocket] at hx ⊢
    dsimp only at hx
    split at hx
    · cases hx
    · exact hg x r hx

theorem matches_dropSocket (s : SocketId) :
    Matches Placed (fun _ => Placed) (dropSocket s) (GraphM.dropSocket s) :=
  .bind (.of_ends fun _ hg => ends_unlink hg s) fun _ =>
    (matches_clearSocket s).bind fun _ => .pure _

theorem matches_dropInputs (ss : List SocketId) :
    Matches Placed (fun _ => Placed) (dropInputs ss) (GraphM.dropInputs ss) := by
  induction ss with
  | nil => exact .pure []
  | cons s ss ih =>
      rw [dropInputs, GraphM.dropInputs]
      refine .bind (.of_ends fun _ hg => ends_unlink hg s) fun peer => ?_
      have hrest : ∀ detached, Matches (fun g => Placed g ∧ s.index < g.nextSocket)
          (fun _ => Placed)
          (do
            clearSocket s
            return detached ++ (← dropInputs ss))
          (do
            modify (·.eraseSocket s)
            return detached ++ (← GraphM.dropInputs ss)) := fun detached =>
        (matches_clearSocket s).bind fun _ => ih.bind fun _ => .pure _
      cases peer with
      | none => exact hrest []
      | some peer =>
          exact .bind (.of_preserves (GraphM.preserves_ask _)) fun socket => hrest [socket.block]

theorem preserves_addSocket (b : BlockId) (role : Role) (ty : Ty) :
    Preserves Placed (GraphM.act (·.addSocket b role ty)) :=
  .modifyGet fun _ hg => (grown_addSocket hg b role ty).2.bounded hg

theorem preserves_setTy (s : SocketId) (ty : Ty) : Preserves Placed (GraphM.setTy s (some ty)) :=
  GraphM.preserves_setTy (durable_shape Shape.Bounded) s ty

theorem preserves_updateBlock (b : BlockId) (f : Block → Block) :
    Preserves Placed (GraphM.updateBlock b f) :=
  (GraphM.preserves_ask _).bind fun _ => .modify fun _ => id

theorem preserves_reuseInputs (b : BlockId) (old : Std.ExtTreeMap String SocketId)
    (ins : List (String × Ty)) : Preserves Placed (GraphM.reuseInputs b old ins) := by
  induction ins generalizing old with
  | nil => exact .pure _
  | cons entry ins ih =>
      obtain ⟨slot, ty⟩ := entry
      rw [GraphM.reuseInputs]
      have hrest : ∀ s, Preserves Placed
          (do let rest ← GraphM.reuseInputs b (old.erase slot) ins; return (s :: rest.1, rest.2)) :=
        fun _ => (ih _).bind fun _ => .pure _
      cases old[slot]? with
      | some s => exact .bind (preserves_setTy s ty) fun _ => .bind (.pure _) hrest
      | none => exact .bind (preserves_addSocket b _ ty) hrest

theorem matches_replaceOutput (b : BlockId) (old : Option SocketId) (ty : Option Ty) :
    Matches Placed (fun _ => Placed) (replaceOutput b old ty) (GraphM.replaceOutput b old ty) := by
  cases old with
  | none =>
      cases ty with
      | none => exact .pure _
      | some ty => exact .of_preserves (.bind (preserves_addSocket b _ ty) fun _ => .pure _)
  | some s =>
      cases ty with
      | none => exact (matches_dropSocket s).bind fun _ => .pure _
      | some ty => exact .of_preserves (.bind (preserves_setTy s ty) fun _ => .pure _)

theorem matches_replaceSockets (b : BlockId) (layout : Layout) :
    Matches Placed (fun _ => Placed) (replaceSockets b layout)
      (GraphM.replaceSockets b layout) := by
  refine .bind (.of_preserves (GraphM.preserves_ask _)) fun block => ?_
  refine .bind (.of_preserves (GraphM.preserves_inputsBySlot _)) fun old => ?_
  refine .bind (.of_preserves (preserves_reuseInputs b old layout.inputs)) fun reused => ?_
  refine .bind (matches_dropInputs _) fun detached => ?_
  refine .bind (matches_replaceOutput b _ _) fun output => ?_
  exact .bind (.of_preserves (preserves_updateBlock b _)) fun _ => .pure _

theorem preserves_dropSocket {Q : Std.ExtTreeMap BlockId Block → Nat → Prop} (s : SocketId) :
    Preserves (fun g => Q g.blocks g.nextBlock) (GraphM.dropSocket s) := by
  have hrest : Preserves (fun g => Q g.blocks g.nextBlock) (modify (·.eraseSocket s) : GraphM _) :=
    .modify fun _ => id
  refine .bind (.bind (GraphM.preserves_ask _) fun socket => .bind (.modify fun _ => id)
    fun _ => ?_) fun _ => .bind hrest fun _ => .pure _
  cases socket.peer with
  | none => exact .pure _
  | some peer => exact .bind (.modify fun _ => id) fun _ => .pure _

/-- A block is still in its place when its sockets are gone. -/
theorem matches_removeBlock (b : BlockId) :
    Matches (fun g => g.shape.Wired) (fun _ => Placed) (removeBlock b) (GraphM.removeBlock b) := by
  let Q (block : Block) (blocks : Std.ExtTreeMap BlockId Block) (nextBlock : Nat) : Prop :=
    blocks[b]? = some block ∧ b.index < nextBlock
  let J (block : Block) (g : Graph) : Prop := Placed g ∧ Q block g.blocks g.nextBlock
  refine .bind (J := J) (.of_ends (E := fun _ => True) fun g hg => ?_) fun block => ?_
  · rw [GraphM.ends_ask]
    cases hblock : g.block b with
    | error e => trivial
    | ok block =>
        rw [block_eq_ok] at hblock
        exact ⟨hg.bounded, hblock, hg.block_lt (shape_ports_eq_some.2 ⟨block, hblock, rfl⟩)⟩
  · have hdrops : Matches (J block) (fun _ => J block)
        ((block.output.toList ++ block.inputs).forM fun s => discard (dropSocket s))
        ((block.output.toList ++ block.inputs).forM fun s => discard (GraphM.dropSocket s)) :=
      .forM fun s _ => ((matches_dropSocket s).and_preserves
        (preserves_dropSocket (Q := Q block) s)).map fun _ _ => id
    refine hdrops.bind fun _ g ⟨hg, hblock, hlt⟩ => ⟨?_, hg⟩
    change (if b.index < g.nextBlock then _ else stuck : BareM Fault Graph Block).run g = _
    rw [if_pos hlt, hblock]
    rfl

end BareGraph

end Plugboard
