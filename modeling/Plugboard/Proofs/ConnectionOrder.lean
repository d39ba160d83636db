import Mathlib
import Plugboard.Proofs.Coherence
import Plugboard.Proofs.Unifiers

/-!
# The order of connections does not matter

Several connections can be made if their links fit into the shape all together and the equations
of their types have a solution. Neither depends on an order. In whatever order they are made, the
shape gets the same links, and what is applied to the types settles the same equations.
-/

namespace Plugboard

open Relation Shape Workspace

namespace Shape

variable {sh : Shape} {o i : SocketId} {links links' : List (SocketId × SocketId)}

/-- The shape with outputs and inputs plugged together. -/
def joins (sh : Shape) (links : List (SocketId × SocketId)) : Shape :=
  links.foldl (fun sh link => sh.join link.1 link.2) sh

theorem peer_join_eq_none {x : SocketId} :
    (sh.join o i).peer x = none ↔ x ≠ o ∧ x ≠ i ∧ sh.peer x = none := by
  simp only [join]
  split_ifs with hi ho <;> simp_all

theorem join_comm {o' i' : SocketId} (hoo : o ≠ o') (hii : i ≠ i') (hoi : o ≠ i') (hio : i ≠ o') :
    (sh.join o i).join o' i' = (sh.join o' i').join o i := by
  simp only [join, Shape.mk.injEq, true_and, and_true]
  funext x
  split_ifs <;> simp_all

theorem plugged_of_join_free {b c : BlockId} (ho : sh.peer o = none) (hi : sh.peer i = none)
    (hplug : sh.Plugged b c) : (sh.join o i).Plugged b c := by
  obtain ⟨s, d, slot, hs, hd, hc⟩ := hplug
  refine ⟨s, d, slot, hs, ?_, hc⟩
  have hso : s ≠ o := fun heq => by simp [← heq, hd] at ho
  have hsi : s ≠ i := fun heq => by simp [← heq, hd] at hi
  change (if s = i then some o else if s = o then some i else sh.peer s) = some d
  rw [if_neg hsi, if_neg hso, hd]

/-- The links have no socket in common. -/
def Apart (link link' : SocketId × SocketId) : Prop := link.1 ≠ link'.1 ∧ link.2 ≠ link'.2

instance : Std.Symm Apart where
  symm _ _ h := ⟨h.1.symm, h.2.symm⟩

/-- The links fit in all together: their sockets are free and used once, and no cycle arises. -/
structure Compatible (sh : Shape) (links : List (SocketId × SocketId)) : Prop where
  directed : ∀ link ∈ links, sh.Directed link.1 link.2
  free : ∀ link ∈ links, sh.peer link.1 = none ∧ sh.peer link.2 = none
  apart : links.Pairwise Apart
  acyclic : (sh.joins links).Acyclic

namespace Compatible

theorem joins_eq (h : sh.Compatible links) (hperm : links.Perm links') :
    sh.joins links' = sh.joins links := by
  refine (hperm.foldl_eq' (fun x hx y hy z => ?_) sh).symm
  by_cases hxy : x = y
  · rw [hxy]
  · have hne := h.apart.forall hx hy hxy
    -- an output is not an input
    have hcross : ∀ {x y : SocketId × SocketId}, x ∈ links → y ∈ links → x.1 ≠ y.2 := by
      intro x y hx hy heq
      obtain ⟨c, -, -, hout, -⟩ := h.directed x hx
      obtain ⟨-, d, slot, -, hin⟩ := h.directed y hy
      rw [heq, hin] at hout
      cases hout
    exact join_comm hne.1 hne.2 (hcross hx hy) (hcross hy hx).symm

theorem perm (h : sh.Compatible links) (hperm : links.Perm links') : sh.Compatible links' where
  directed link hlink := h.directed link (hperm.mem_iff.2 hlink)
  free link hlink := h.free link (hperm.mem_iff.2 hlink)
  apart := (hperm.pairwise_iff fun hne => Std.Symm.symm _ _ hne).1 h.apart
  acyclic := h.joins_eq hperm ▸ h.acyclic

/-- Of several links any one can be made first. -/
theorem tail (h : sh.Compatible ((o, i) :: links)) : (sh.join o i).Compatible links where
  directed link hlink := h.directed link (List.mem_cons_of_mem _ hlink)
  free link hlink := by
    obtain ⟨ho, hi⟩ := h.free link (List.mem_cons_of_mem _ hlink)
    obtain ⟨hne, -⟩ := List.pairwise_cons.1 h.apart
    obtain ⟨c, d, slot, hout, hin⟩ := h.directed _ List.mem_cons_self
    obtain ⟨c', d', slot', hout', hin'⟩ := h.directed link (List.mem_cons_of_mem _ hlink)
    refine ⟨peer_join_eq_none.2 ⟨(hne link hlink).1.symm, fun heq => ?_, ho⟩,
      peer_join_eq_none.2 ⟨fun heq => ?_, (hne link hlink).2.symm, hi⟩⟩
    · rw [heq, hin] at hout'
      cases hout'
    · rw [heq, hout] at hin'
      cases hin'
  apart := (List.pairwise_cons.1 h.apart).2
  acyclic := h.acyclic

theorem plugged (h : sh.Compatible links) {b c : BlockId} (hplug : sh.Plugged b c) :
    (sh.joins links).Plugged b c := by
  induction links generalizing sh with
  | nil => exact hplug
  | cons link links ih =>
      obtain ⟨ho, hi⟩ := h.free link List.mem_cons_self
      exact ih h.tail (plugged_of_join_free ho hi hplug)

theorem head (h : sh.Compatible ((o, i) :: links)) : ∃ c d, sh.Joinable o i c d := by
  obtain ⟨c, d, slot, ho, hi⟩ := h.directed _ List.mem_cons_self
  obtain ⟨hfreeO, hfreeI⟩ := h.free _ List.mem_cons_self
  refine ⟨c, d, ho, ⟨slot, hi⟩, hfreeO, hfreeI, fun hbelow => ?_⟩
  have hpath : (sh.joins ((o, i) :: links)).Below d c :=
    hbelow.lift id fun _ _ => h.plugged
  have hlink : (sh.join o i).Plugged c d := by
    refine ⟨o, i, slot, ho, ?_, hi⟩
    have hne : o ≠ i := fun heq => by
      rw [heq, hi] at ho
      cases ho
    simp [join, hne]
  exact h.acyclic c (.head' (h.tail.plugged hlink) hpath)

theorem cons {c d : BlockId} (hjoin : sh.Joinable o i c d)
    (h : (sh.join o i).Compatible links) : sh.Compatible ((o, i) :: links) where
  directed := List.forall_mem_cons.2 ⟨hjoin.directed, h.directed⟩
  free := by
    refine List.forall_mem_cons.2 ⟨⟨hjoin.outputFree, hjoin.inputFree⟩, fun link hlink => ?_⟩
    obtain ⟨ho, hi⟩ := h.free link hlink
    exact ⟨(peer_join_eq_none.1 ho).2.2, (peer_join_eq_none.1 hi).2.2⟩
  apart := by
    refine List.pairwise_cons.2 ⟨fun link hlink => ?_, h.apart⟩
    obtain ⟨ho, hi⟩ := h.free link hlink
    exact ⟨(peer_join_eq_none.1 ho).1.symm, (peer_join_eq_none.1 hi).2.1.symm⟩
  acyclic := h.acyclic

end Compatible

end Shape

/-- The equations that links make of the types on their sockets. -/
def Graph.equations (g : Graph) (links : List (SocketId × SocketId)) : List (Ty × Ty) :=
  links.filterMap fun link => (g.tyAt link.1).bind fun t => (g.tyAt link.2).map (t, ·)

namespace Workspace

variable {ws ws' ws'' : Workspace} {sh sh' : Shape} {s s' : Subst}

theorem Becomes.refl (ws : Workspace) : ws.Becomes ws.main.shape .empty ws where
  shape := rfl
  flyoutShape := rfl
  tyAt canvas x := by cases (ws.graph canvas).tyAt x <;> simp
  paramAt canvas b name := by cases (ws.graph canvas).paramAt b name <;> simp

theorem Becomes.trans (h : ws.Becomes sh s ws') (h' : ws'.Becomes sh' s' ws'') :
    ws.Becomes sh' (s'.compose s) ws'' where
  shape := h'.shape
  flyoutShape := h'.flyoutShape.trans h.flyoutShape
  tyAt canvas x := by
    rw [h'.tyAt, h.tyAt, Option.map_map]
    exact congrArg (Option.map · _) (funext fun t => (Subst.apply_compose s' s t).symm)
  paramAt canvas b name := by
    rw [h'.paramAt, h.paramAt, Option.map_map]
    exact congrArg (Option.map · _) (funext fun t => (Subst.apply_compose s' s t).symm)

theorem Becomes.equations (h : ws.Becomes sh s ws') (links : List (SocketId × SocketId)) :
    ws'.main.equations links =
      (ws.main.equations links).map fun e => (s.apply e.1, s.apply e.2) := by
  have hty : ∀ x, ws'.main.tyAt x = (ws.main.tyAt x).map s.apply := h.tyAt .main
  rw [Graph.equations, Graph.equations, List.map_filterMap]
  refine List.filterMap_congr fun link _ => ?_
  rw [hty, hty]
  cases ws.main.tyAt link.1 <;> cases ws.main.tyAt link.2 <;> rfl

/-- The same links, and the same types up to one renaming of type variables. -/
structure Alike (ws ws' : Workspace) : Prop where
  links : ∀ canvas, (ws'.graph canvas).shape = (ws.graph canvas).shape
  types : ∃ π : Equiv.Perm String, ∀ canvas,
    (∀ s, (ws'.graph canvas).tyAt s = ((ws.graph canvas).tyAt s).map (Ty.rename π)) ∧
      ∀ b name, (ws'.graph canvas).paramAt b name =
        ((ws.graph canvas).paramAt b name).map (Ty.rename π)

/-- What two substitutions that settle the same problem make of a workspace. -/
theorem Becomes.alike {P : (String → Ty) → Prop} (h : ws.Becomes sh s ws')
    (h' : ws.Becomes sh s' ws'') (hs : Settles P (.ok s)) (hs' : Settles P (.ok s')) :
    ws'.Alike ws'' := by
  obtain ⟨π, hπ⟩ := hs.exists_perm hs'
  have hcomp : Ty.rename π ∘ s.apply = s'.apply := funext fun t => (hπ t).symm
  refine ⟨fun canvas => ?_, π, fun canvas => ⟨fun x => ?_, fun b name => ?_⟩⟩
  · cases canvas with
    | main => exact h'.shape.trans h.shape.symm
    | flyout => exact h'.flyoutShape.trans h.flyoutShape.symm
  · rw [h'.tyAt, h.tyAt, Option.map_map, hcomp]
  · rw [h'.paramAt, h.paramAt, Option.map_map, hcomp]

end Workspace

/-- The links tell for each call which socket is the output. -/
def Oriented (calls links : List (SocketId × SocketId)) : Prop :=
  List.Forall₂ (fun call link => link = (call.1, call.2) ∨ link = (call.2, call.1)) calls links

namespace WorkspaceM

variable {ws : Workspace} {calls links : List (SocketId × SocketId)}

/-- Makes one connection after the other, up to the first that cannot be made. -/
def connectAll (calls : List (SocketId × SocketId)) : WorkspaceM (List Subst) :=
  calls.mapM fun call => connect call.1 call.2

/-- What has been connected in turn fits together, and its equations have been settled. -/
theorem ends_connectAll (h : ws.Settled ∅) (calls : List (SocketId × SocketId)) :
    Ends (connectAll calls) ws (fun _ ws' => ∃ links s, Oriented calls links ∧
      ws.main.shape.Compatible links ∧ Settles (Solves (ws.main.equations links)) (.ok s) ∧
      ws.Becomes (ws.main.shape.joins links) s ws') fun _ => True := by
  induction calls generalizing ws with
  | nil =>
      refine ⟨[], .empty, .nil, ⟨by simp, by simp, .nil, h.1.1.acyclic⟩, ?_, .refl ws⟩
      exact .trivial fun r e he => (List.not_mem_nil he).elim
  | cons call calls ih =>
      rw [connectAll, List.mapM_cons, ends_bind]
      refine (ends_connect h call.1 call.2).imp (fun s ws₁ ⟨o, i, hconnect, hlinks⟩ => ?_)
        fun _ _ => trivial
      have hbecomes := hlinks.becomes hconnect
      obtain ⟨c, d, hjoin⟩ := hconnect.joinable
      obtain ⟨t, u, ht, hu, hs⟩ := hconnect.unifies
      have hws₁ := hbecomes.settled h (h.1.1.of_joinable hjoin) rfl
      rw [ends_bind]
      refine (ih hws₁).imp (fun _ ws₂ ⟨links, s', horient, hcompat, hsettles, hrest⟩ => ?_)
        fun _ => id
      rw [hbecomes.shape] at hcompat hrest
      rw [hbecomes.equations] at hsettles
      refine ⟨(o, i) :: links, s'.compose s, .cons hconnect.order horient, .cons hjoin hcompat, ?_,
        hbecomes.trans hrest⟩
      have hhead : ws.main.equations ((o, i) :: links) = (t, u) :: ws.main.equations links := by
        simp [Graph.equations, ht, hu]
      rw [hhead]
      exact .after hs hsettles

/-- Links that fit together and whose equations have a solution can be connected in turn. -/
theorem ends_connectAll_of_compatible (h : ws.Settled ∅) (horient : Oriented calls links)
    (hcompat : ws.main.shape.Compatible links) {r : String → Ty}
    (hr : Solves (ws.main.equations links) r) :
    Ends (connectAll calls) ws (fun _ ws' => ∃ s,
      Settles (Solves (ws.main.equations links)) (.ok s) ∧
      ws.Becomes (ws.main.shape.joins links) s ws') fun _ => False := by
  induction horient generalizing ws with
  | nil => exact ⟨.empty, .trivial fun r e he => (List.not_mem_nil he).elim, .refl ws⟩
  | @cons call link calls links horder _ ih =>
      obtain ⟨o, i⟩ := link
      obtain ⟨c, d, hjoin⟩ := hcompat.head
      obtain ⟨t, ht⟩ := Graph.exists_tyAt h.2.1 hjoin.output
      obtain ⟨slot, hi⟩ := hjoin.input
      obtain ⟨u, hu⟩ := Graph.exists_tyAt h.2.1 hi
      have hhead : ws.main.equations ((o, i) :: links) = (t, u) :: ws.main.equations links := by
        simp [Graph.equations, ht, hu]
      rw [hhead, Solves, List.forall_mem_cons] at hr
      obtain ⟨s₀, hs₀⟩ := exists_unify_of_bind_eq hr.1
      rw [connectAll, List.mapM_cons, ends_bind]
      refine (ends_connect h call.1 call.2).imp (fun s ws₁ hmade => ?_) fun ws₁ hfail =>
        hfail.2 o i s₀ ⟨horder, ⟨c, d, hjoin⟩, t, u, ht, hu, hs₀⟩
      obtain ⟨o', i', hconnect, hlinks⟩ := hmade
      have hbecomes := hlinks.becomes hconnect
      obtain ⟨c', d', hjoin'⟩ := hconnect.joinable
      cases hjoin.directed.unique hjoin'.directed horder hconnect.order
      obtain ⟨t', u', ht', hu', hs⟩ := hconnect.unifies
      cases ht.symm.trans ht'
      cases hu.symm.trans hu'
      have hws₁ := hbecomes.settled h (h.1.1.of_joinable hjoin) rfl
      have hrest : Solves (ws₁.main.equations links) r := by
        rw [hbecomes.equations]
        intro e' he'
        obtain ⟨e, he, rfl⟩ := List.mem_map.1 he'
        rw [bind_apply_of_unify hs hr.1, bind_apply_of_unify hs hr.1]
        exact hr.2 e he
      rw [ends_bind]
      refine (ih hws₁ (hbecomes.shape ▸ hcompat.tail) hrest).imp (fun _ ws₂ hmade => ?_)
        fun _ => id
      obtain ⟨s', hsettles, hbecomes'⟩ := hmade
      rw [hbecomes.equations] at hsettles
      rw [hbecomes.shape] at hbecomes'
      exact ⟨s'.compose s, hhead ▸ .after hs hsettles, hbecomes.trans hbecomes'⟩

end WorkspaceM

namespace Workspace

open WorkspaceM

/-- Connections that can all be made in one order can all be made in any other, and what results
is the same up to a renaming of type variables. -/
theorem Reachable.connectAll_perm {ws ws' : Workspace} {substs : List Subst}
    {calls calls' : List (SocketId × SocketId)} (h : ws.Reachable Command.AddsUnrepeated)
    (hperm : calls.Perm calls') (hrun : (connectAll calls).run ws = (.ok substs, ws')) :
    ∃ substs' ws'', (connectAll calls').run ws = (.ok substs', ws'') ∧ ws'.Alike ws'' := by
  obtain ⟨links, s, horient, hcompat, hsettles, hbecomes⟩ :=
    (ends_connectAll h.settled calls).of_run_eq hrun
  obtain ⟨links', horient', hlinks⟩ := List.perm_comp_forall₂ hperm.symm horient
  have hequations : (ws.main.equations links').Perm (ws.main.equations links) :=
    hlinks.filterMap _
  have hiff : ∀ r, Solves (ws.main.equations links') r ↔ Solves (ws.main.equations links) r :=
    fun r => forall_congr' fun e => imp_congr_left hequations.mem_iff
  have hends := ends_connectAll_of_compatible h.settled horient' (hcompat.perm hlinks.symm)
    ((hiff _).2 hsettles.1)
  obtain ⟨substs', ws'', hrun', s', hsettles', hbecomes'⟩ := hends.exists_run
  refine ⟨substs', ws'', hrun', ?_⟩
  rw [hcompat.joins_eq hlinks.symm] at hbecomes'
  exact hbecomes.alike hbecomes' hsettles (hsettles'.congr hiff)

/-- A variable and a lambda are plugged into an application as function and argument. -/
theorem connectAll_perm_apply_lambda :
    let ws := [.add .main .apply, .add .main (.variable "x"), .add .main (.lambda "y")].foldl after
      (ofSettings default)
    ∃ substs ws' substs' ws'',
      (connectAll [(⟨3⟩, ⟨1⟩), (⟨2⟩, ⟨4⟩)]).run ws = (.ok substs, ws') ∧
      (connectAll [(⟨2⟩, ⟨4⟩), (⟨3⟩, ⟨1⟩)]).run ws = (.ok substs', ws'') ∧ ws'.Alike ws'' := by
  intro ws
  have hrun : (connectAll [(⟨3⟩, ⟨1⟩), (⟨2⟩, ⟨4⟩)]).run ws =
      (.ok [.ofList [("C", .fn (.var "A") (.var "B"))], .ofList [("A", .fn (.var "D") (.var "E"))]],
        ((connectAll [(⟨3⟩, ⟨1⟩), (⟨2⟩, ⟨4⟩)]).run ws).2) := by cbv
  obtain ⟨substs', ws'', hrun', halike⟩ := Reachable.connectAll_perm
    ((Reachable.start default).foldl (by simp [Command.AddsUnrepeated, BlockKind.Unrepeated]))
    (.swap _ _ _) hrun
  exact ⟨_, _, substs', ws'', hrun, hrun', halike⟩

end Workspace

end Plugboard
