import Plugboard.Proofs.Settling

/-!
# What it takes to connect two sockets

An output and an input can be connected if neither is plugged in, the block that takes is not
below the one that gives, and the types unify. Then they are linked, and what unifies the types
is applied to both canvases.
-/

namespace Plugboard

open Shape

namespace Shape

/-- The first socket is an output and the second one an input. -/
def Directed (sh : Shape) (o i : SocketId) : Prop :=
  ∃ c d slot, sh.site o = some (c, .output) ∧ sh.site i = some (d, .input slot)

/-- The output of `c` can be plugged into the input of `d`. -/
structure Joinable (sh : Shape) (o i : SocketId) (c d : BlockId) : Prop where
  output : sh.site o = some (c, .output)
  input : ∃ slot, sh.site i = some (d, .input slot)
  outputFree : sh.peer o = none
  inputFree : sh.peer i = none
  below : ¬ sh.Below d c

variable {sh : Shape} {o i : SocketId} {c d : BlockId}

theorem Directed.not_swap (h : sh.Directed o i) : ¬ sh.Directed i o := by
  rintro ⟨c', d', slot', hi', -⟩
  obtain ⟨c, d, slot, -, hi⟩ := h
  rw [hi] at hi'
  cases hi'

/-- At most one of the two orders of two sockets is the right one. -/
theorem Directed.unique {a b o' i' : SocketId} (h : sh.Directed o i) (h' : sh.Directed o' i')
    (hab : (o, i) = (a, b) ∨ (o, i) = (b, a)) (hab' : (o', i') = (a, b) ∨ (o', i') = (b, a)) :
    (o', i') = (o, i) := by
  rcases hab with hab | hab <;> rcases hab' with hab' | hab' <;> cases hab <;> cases hab'
  · rfl
  · exact (h.not_swap h').elim
  · exact (h.not_swap h').elim
  · rfl

/-- The socket that gives is not the one that takes. -/
theorem Joinable.ne (h : sh.Joinable o i c d) : o ≠ i := by
  rintro rfl
  obtain ⟨slot, hi⟩ := h.input
  cases h.output.symm.trans hi

theorem Joinable.directed (h : sh.Joinable o i c d) : sh.Directed o i :=
  let ⟨slot, hi⟩ := h.input
  ⟨c, d, slot, h.output, hi⟩

theorem Joinable.acyclic (h : sh.Joinable o i c d) (hsh : sh.Acyclic) : (sh.join o i).Acyclic := by
  obtain ⟨slot, hi⟩ := h.input
  exact hsh.of_link h.below (plugged_join h.output hi)

theorem Regular.of_joinable {loose : Set BlockId} (hsh : sh.Regular loose)
    (h : sh.Joinable o i c d) : (sh.join o i).Regular loose := by
  obtain ⟨slot, hi⟩ := h.input
  exact hsh.join h.output hi h.outputFree h.inputFree (h.acyclic hsh.acyclic)

end Shape

namespace Graph

variable {g : Graph} {s : SocketId}

/-- The walk down from the block that gives tells whether the link would close a cycle. -/
theorem wouldCycle_eq (h : g.shape.Wired) {o i : SocketId} {c d : BlockId} {r r' : Role}
    (ho : g.shape.site o = some (c, r)) (hi : g.shape.site i = some (d, r')) :
    ∃ answer, g.wouldCycle o i = .ok answer ∧ (answer = true ↔ g.shape.Below d c) := by
  obtain ⟨output, houtput, hc⟩ := shape_site_eq_some.1 ho
  obtain ⟨input, hinput, hd⟩ := shape_site_eq_some.1 hi
  obtain ⟨p, hp⟩ := h.owner ho
  obtain ⟨found, hfound, hmem⟩ := exists_descendants_eq h hp
  obtain ⟨rfl, -⟩ := Prod.mk.inj hc
  obtain ⟨rfl, -⟩ := Prod.mk.inj hd
  refine ⟨found.contains input.block, ?_, ?_⟩
  · rw [wouldCycle, socket_eq_ok.2 houtput, socket_eq_ok.2 hinput]
    simp [bind, Except.bind, hfound, pure, Except.pure]
  · rw [← Std.ExtTreeSet.mem_iff_contains, hmem]

theorem exists_tyAt (h : g.Typed) {r : BlockId × Role} (hs : g.shape.site s = some r) :
    ∃ t, g.tyAt s = some t := by
  obtain ⟨socket, hsocket, -⟩ := shape_site_eq_some.1 hs
  obtain ⟨t, ht, -⟩ := h.socket hsocket
  rw [tyAt, hsocket]
  exact ⟨t, ht⟩

theorem mem_blockSet {b : BlockId} : b ∈ g.blockSet ↔ ∃ p, g.shape.ports b = some p := by
  rw [blockSet, Std.ExtTreeSet.mem_ofList, ← mem_world, world, List.mem_toFinset]
  simp

/-- Puts the image of every type in its place. -/
def mapTypes (f : Ty → Ty) (g : Graph) : Graph :=
  { g with
    sockets := g.sockets.map fun _ socket => { socket with ty := socket.ty.map f }
    blocks := g.blocks.map fun _ block => { block with params := block.params.map fun _ => f } }

/-- Makes two sockets each other's peers. -/
def plugTogether (g : Graph) (a b : SocketId) : Graph := (g.setPeer a (some b)).setPeer b (some a)

theorem applyTo_blockSet (h : g.shape.Wired) (s : Subst) :
    g.applyTo s g.blockSet = g.mapTypes s.apply := by
  have hsockets : (g.applyTo s g.blockSet).sockets = (g.mapTypes s.apply).sockets := by
    refine Std.ExtTreeMap.ext_getElem? fun x => ?_
    simp only [applyTo, mapTypes, Std.ExtTreeMap.getElem?_map]
    cases hx : g.sockets[x]? with
    | none => rfl
    | some socket =>
        have hmem : socket.block ∈ g.blockSet :=
          mem_blockSet.2 (h.owner (shape_site_eq_some.2 ⟨socket, hx, rfl⟩))
        simp [hmem]
  have hblocks : (g.applyTo s g.blockSet).blocks = (g.mapTypes s.apply).blocks := by
    refine Std.ExtTreeMap.ext_getElem? fun x => ?_
    simp only [applyTo, mapTypes, Std.ExtTreeMap.getElem?_map]
    cases hx : g.blocks[x]? with
    | none => rfl
    | some block =>
        have hmem : x ∈ g.blockSet := mem_blockSet.2 ⟨_, shape_ports_eq_some.2 ⟨block, hx, rfl⟩⟩
        simp [hmem]
  change ({ g with
    sockets := (g.applyTo s g.blockSet).sockets
    blocks := (g.applyTo s g.blockSet).blocks } : Graph) = _
  rw [hsockets, hblocks]
  rfl

/-- A socket keeps its type when it is given again. -/
theorem modifySocket_ty {s : SocketId} {t : Ty} (h : g.tyAt s = some t) :
    (g.modifySocket s fun socket => { socket with ty := some t }) = g := by
  have hsockets : (g.modifySocket s fun socket => { socket with ty := some t }).sockets =
      g.sockets := by
    refine Std.ExtTreeMap.ext_getElem? fun x => ?_
    rw [getElem?_modifySocket]
    split
    · rename_i hx
      subst hx
      rw [tyAt] at h
      cases hs : g.sockets[s]? with
      | none => rfl
      | some socket =>
          rw [hs] at h
          cases socket
          cases h
          rfl
    · rfl
  change ({ g with
    sockets := (g.modifySocket s fun socket => { socket with ty := some t }).sockets } : Graph) = g
  rw [hsockets]

theorem tyAt_plugTogether (g : Graph) (a b : SocketId) : (g.plugTogether a b).tyAt = g.tyAt := by
  funext x
  simp only [tyAt, plugTogether, setPeer, getElem?_modifySocket]
  cases g.sockets[x]? <;> split <;> split <;> rfl

theorem tyAt_mapTypes (f : Ty → Ty) (x : SocketId) : (g.mapTypes f).tyAt x = (g.tyAt x).map f := by
  simp only [tyAt, mapTypes, Std.ExtTreeMap.getElem?_map]
  cases g.sockets[x]? <;> rfl

theorem paramAt_mapTypes (f : Ty → Ty) (b : BlockId) (name : String) :
    (g.mapTypes f).paramAt b name = (g.paramAt b name).map f := by
  simp only [paramAt, mapTypes, Std.ExtTreeMap.getElem?_map]
  cases g.blocks[b]? with
  | none => rfl
  | some block => simp [Std.ExtTreeMap.getElem?_map]

theorem shape_mapTypes (g : Graph) (f : Ty → Ty) : (g.mapTypes f).shape = g.shape := by
  ext x y <;> simp only [shape, mapTypes, Std.ExtTreeMap.getElem?_map]
  · cases g.blocks[x]? <;> rfl
  · cases g.sockets[x]? <;> rfl
  · cases g.sockets[x]? <;> rfl

end Graph

namespace Workspace

/-- The sockets `a` and `b` can be connected as output `o` and input `i`, and `s` makes their
types equal. -/
structure Connectable (ws : Workspace) (a b o i : SocketId) (s : Subst) : Prop where
  order : (o, i) = (a, b) ∨ (o, i) = (b, a)
  joinable : ∃ c d, ws.main.shape.Joinable o i c d
  unifies : ∃ t u, ws.main.tyAt o = some t ∧ ws.main.tyAt i = some u ∧ unify t u = .ok s

/-- The two sockets are linked, `s` is applied to all types, and there is no other change to the
canvases or to the pool. -/
structure Links (ws : Workspace) (a b : SocketId) (s : Subst) (ws' : Workspace) : Prop where
  main : ws'.main = (ws.main.plugTogether a b).mapTypes s.apply
  flyout : ws'.flyout = ws.flyout.mapTypes s.apply
  pool : ws'.pool = ws.pool

/-- The main canvas has a new shape, and `s` has been applied to everything. -/
structure Becomes (sh : Shape) (s : Subst) (ws ws' : Workspace) : Prop where
  shape : ws'.main.shape = sh
  flyoutShape : ws'.flyout.shape = ws.flyout.shape
  tyAt : ∀ canvas x, (ws'.graph canvas).tyAt x = ((ws.graph canvas).tyAt x).map s.apply
  paramAt : ∀ canvas b name,
    (ws'.graph canvas).paramAt b name = ((ws.graph canvas).paramAt b name).map s.apply

theorem Links.becomes {ws ws' : Workspace} {a b o i : SocketId} {s : Subst}
    (h : ws.Links o i s ws') (hc : ws.Connectable a b o i s) :
    ws.Becomes (ws.main.shape.join o i) s ws' := by
  obtain ⟨c, d, hjoin⟩ := hc.joinable
  obtain ⟨slot, hi⟩ := hjoin.input
  refine ⟨?_, ?_, fun canvas x => ?_, fun canvas b name => ?_⟩
  · rw [h.main, Graph.shape_mapTypes]
    exact Graph.shape_setPeer_setPeer hjoin.output hi
  · rw [h.flyout, Graph.shape_mapTypes]
  · cases canvas with
    | main => simp only [graph, h.main, Graph.tyAt_mapTypes, Graph.tyAt_plugTogether]
    | flyout => simp only [graph, h.flyout, Graph.tyAt_mapTypes]
  · cases canvas with
    | main =>
        simp only [graph, h.main, Graph.paramAt_mapTypes]
        rfl
    | flyout => simp only [graph, h.flyout, Graph.paramAt_mapTypes]

theorem Becomes.settled {ws ws' : Workspace} {sh : Shape} {s : Subst}
    (hbecomes : ws.Becomes sh s ws') (h : ws.Settled ∅) (hsh : sh.Regular ∅)
    (hsite : sh.site = ws.main.shape.site) : ws'.Settled ∅ := by
  have htyped : ∀ canvas, (ws'.graph canvas).shape.site = (ws.graph canvas).shape.site →
      (ws.graph canvas).Typed → (ws'.graph canvas).Typed := by
    intro canvas hsite hcanvas
    refine ⟨fun {x socket'} hx => ?_, fun _ _ => trivial, fun _ => trivial⟩
    obtain ⟨t, ht⟩ := Graph.exists_tyAt hcanvas ((congrFun hsite x).symm.trans
      (Graph.shape_site_eq_some.2 ⟨socket', hx, rfl⟩))
    have hty := hbecomes.tyAt canvas x
    rw [ht, Graph.tyAt, hx] at hty
    exact ⟨s.apply t, hty, trivial⟩
  refine ⟨⟨?_, ?_⟩, htyped .main ?_ h.2.1, htyped .flyout ?_ h.2.2⟩
  · exact hbecomes.shape ▸ hsh
  · exact hbecomes.flyoutShape ▸ h.1.2
  · exact (congrArg Shape.site hbecomes.shape).trans hsite
  · exact congrArg Shape.site hbecomes.flyoutShape

end Workspace

namespace WorkspaceM

open Workspace

variable {ws : Workspace}

theorem site_eq_none {s : SocketId} {e : Fault} (h : ws.main.socket s = .error e) :
    ws.main.shape.site s = none := by
  rw [Graph.socket] at h
  cases hs : ws.main.sockets[s]? with
  | none => simp [Graph.shape, hs]
  | some socket =>
      rw [hs] at h
      cases h

theorem ends_orient (a b : SocketId) :
    Ends (orient a b) ws
      (fun r ws' => ws' = ws ∧ (r = (a, b) ∨ r = (b, a)) ∧ ws.main.shape.Directed r.1 r.2)
      fun ws' => ws' = ws ∧ ∀ o i, (o, i) = (a, b) ∨ (o, i) = (b, a) →
        ¬ ws.main.shape.Directed o i := by
  rw [orient, ends_bind, ends_ask]
  cases ha : ws.main.socket a with
  | error e =>
      have hnone := site_eq_none ha
      refine ⟨rfl, ?_⟩
      rintro o i (h | h) ⟨c, d, slot, ho, hi⟩ <;> cases h <;> simp_all
  | ok first =>
      dsimp only
      rw [ends_bind, ends_ask]
      cases hb : ws.main.socket b with
      | error e =>
          have hnone := site_eq_none hb
          refine ⟨rfl, ?_⟩
          rintro o i (h | h) ⟨c, d, slot, ho, hi⟩ <;> cases h <;> simp_all
      | ok second =>
          have ha := Graph.shape_site_eq_some.2 ⟨first, Graph.socket_eq_ok.1 ha, rfl⟩
          have hb := Graph.shape_site_eq_some.2 ⟨second, Graph.socket_eq_ok.1 hb, rfl⟩
          dsimp only
          rw [Socket.isOutput, Socket.isOutput]
          cases hfirst : first.role with
          | output =>
              cases hsecond : second.role with
              | output =>
                  refine ⟨rfl, ?_⟩
                  rintro o i (h | h) ⟨c, d, slot, ho, hi⟩ <;> cases h <;> simp_all
              | input slot =>
                  exact ⟨rfl, .inl rfl, _, _, slot, hfirst ▸ ha, hsecond ▸ hb⟩
          | input slot =>
              cases hsecond : second.role with
              | output => exact ⟨rfl, .inr rfl, _, _, slot, hsecond ▸ hb, hfirst ▸ ha⟩
              | input slot' =>
                  refine ⟨rfl, ?_⟩
                  rintro o i (h | h) ⟨c, d, slot, ho, hi⟩ <;> cases h <;> simp_all

theorem ends_requireUnplugged {s : SocketId} {r : BlockId × Role}
    (hs : ws.main.shape.site s = some r) :
    Ends (requireUnplugged s) ws (fun _ ws' => ws' = ws ∧ ws.main.shape.peer s = none)
      fun ws' => ws' = ws ∧ ws.main.shape.peer s ≠ none := by
  obtain ⟨socket, hsocket, -⟩ := Graph.shape_site_eq_some.1 hs
  have hpeer : ws.main.shape.peer s = socket.peer := by
    change ws.main.sockets[s]?.bind (·.peer) = _
    rw [hsocket]
    rfl
  rw [requireUnplugged, ends_bind, ends_ask, Graph.socket_eq_ok.2 hsocket, hpeer]
  dsimp only
  split
  · rename_i hplugged
    exact ⟨rfl, Option.isSome_iff_ne_none.1 hplugged⟩
  · rename_i hfree
    exact ⟨rfl, by simpa using hfree⟩

theorem ends_tyOrFresh {s : SocketId} {r : BlockId × Role} (hs : ws.main.shape.site s = some r)
    (htyped : ws.main.Typed) :
    Ends (tyOrFresh s) ws (fun t ws' => ws' = ws ∧ ws.main.tyAt s = some t) fun _ => False := by
  obtain ⟨socket, hsocket, -⟩ := Graph.shape_site_eq_some.1 hs
  obtain ⟨t, ht, -⟩ := htyped.socket hsocket
  have hty : ws.main.socketTy s = .ok (some t) := by
    rw [Graph.socketTy, Graph.socket, hsocket]
    exact congrArg _ ht
  rw [tyOrFresh, ends_bind, ends_ask, hty]
  refine ⟨rfl, ?_⟩
  rw [Graph.tyAt, hsocket]
  exact ht

/-- Links two sockets and makes their types equal everywhere. -/
theorem ends_join (h : ws.Settled ∅) {o i : SocketId} {c d : BlockId} {t u : Ty} {s : Subst}
    (hjoin : ws.main.shape.Joinable o i c d) (ht : ws.main.tyAt o = some t)
    (hu : ws.main.tyAt i = some u) :
    Ends (do
        onMain do
          GraphM.link o i
          GraphM.setTy o (some t)
          GraphM.setTy i (some u)
        let child := (← ask (·.socket o)).block
        modify fun ws => (ws.substitute .main s).substitute .flyout s
        requestRender .main (.ofList [child, d])
        requestSweep
        return s) ws (fun s' ws' => s' = s ∧ ws.Links o i s ws') fun _ => False := by
  obtain ⟨slot, hi⟩ := hjoin.input
  have hset : ∀ {x : SocketId} {t : Ty} {r : BlockId × Role},
      (ws.main.plugTogether o i).shape.site x = some r → ws.main.tyAt x = some t →
      Ends (GraphM.setTy x (some t)) (ws.main.plugTogether o i)
        (fun _ g' => g' = ws.main.plugTogether o i) fun _ => False := by
    intro x t r hx ht
    refine (GraphM.ends_updateSocket hx _).imp (fun _ g' hg' => ?_) fun _ => id
    exact hg'.trans (Graph.modifySocket_ty ((congrFun (Graph.tyAt_plugTogether _ o i) x).trans ht))
  have hshape : (ws.main.plugTogether o i).shape = ws.main.shape.join o i :=
    Graph.shape_setPeer_setPeer hjoin.output hi
  have hsite : (ws.main.plugTogether o i).shape.site = ws.main.shape.site :=
    (congrArg Shape.site hshape).trans rfl
  rw [ends_bind, ends_onMain, ends_bind]
  refine (GraphM.ends_link_eq hjoin.output hi).imp (fun _ g₁ hg₁ => ?_) fun _ => id
  subst hg₁
  -- the types that are set are those that the sockets have
  rw [ends_bind]
  refine (hset ((congrFun hsite o).trans hjoin.output) ht).imp (fun _ g₂ hg₂ => ?_) fun _ => id
  subst hg₂
  refine (hset ((congrFun hsite i).trans hi) hu).imp (fun _ g₃ hg₃ => ?_) fun _ => id
  subst hg₃
  obtain ⟨socket, hsocket, -⟩ :=
    Graph.shape_site_eq_some.1 ((congrFun hsite o).trans hjoin.output)
  simp only [ends_bind, ends_ask, Graph.socket_eq_ok.2 hsocket, ends_modify, ends_requestRender,
    ends_requestSweep, ends_pure, true_and]
  have hwired : (ws.main.plugTogether o i).shape.Wired :=
    hshape ▸ (h.1.1.of_joinable hjoin).toWired
  exact ⟨Graph.applyTo_blockSet hwired s, Graph.applyTo_blockSet h.1.2.toWired s, rfl⟩

/-- A connection is made if it can be made, and if none is made nothing has changed. -/
theorem ends_connect (h : ws.Settled ∅) (a b : SocketId) :
    Ends (connect a b) ws
      (fun s ws' => ∃ o i, ws.Connectable a b o i s ∧ ws.Links o i s ws')
      fun ws' => ws' = ws ∧ ∀ o i s, ¬ ws.Connectable a b o i s := by
  rw [connect, ends_bind]
  refine (ends_orient a b).imp (fun r ws' hended => ?_) fun ws' hfail =>
    ⟨hfail.1, fun o i s hconnect => ?_⟩
  swap
  · obtain ⟨c, d, hjoin⟩ := hconnect.joinable
    exact hfail.2 o i hconnect.order hjoin.directed
  obtain ⟨o, i⟩ := r
  obtain ⟨rfl, hr, hdirected⟩ := hended
  -- the direction of the sockets settles which of them has to be which
  have hsame : ∀ {o' i' s'}, ws'.Connectable a b o' i' s' → (o', i') = (o, i) := by
    intro o' i' s' hconnect
    obtain ⟨c, d, hjoin⟩ := hconnect.joinable
    exact hdirected.unique hjoin.directed hr hconnect.order
  obtain ⟨c, d, slot, ho, hi⟩ := hdirected
  dsimp only at ho hi ⊢
  rw [ends_bind]
  refine (ends_requireUnplugged ho).imp (fun _ ws' hended => ?_)
    fun ws' hfail => ⟨hfail.1, fun o' i' s' hconnect => ?_⟩
  swap
  · obtain ⟨c', d', hjoin⟩ := hconnect.joinable
    cases hsame hconnect
    exact hfail.2 hjoin.outputFree
  obtain ⟨rfl, hfreeO⟩ := hended
  rw [ends_bind]
  refine (ends_requireUnplugged hi).imp (fun _ ws' hended => ?_)
    fun ws' hfail => ⟨hfail.1, fun o' i' s' hconnect => ?_⟩
  swap
  · obtain ⟨c', d', hjoin⟩ := hconnect.joinable
    cases hsame hconnect
    exact hfail.2 hjoin.inputFree
  obtain ⟨rfl, hfreeI⟩ := hended
  obtain ⟨socket, hsocket, hd⟩ := Graph.shape_site_eq_some.1 hi
  obtain ⟨answer, hanswer, hbelow⟩ := Graph.wouldCycle_eq h.1.1.toWired ho hi
  obtain ⟨rfl, -⟩ := Prod.mk.inj hd
  simp only [ends_bind, ends_ask, Graph.socket_eq_ok.2 hsocket, hanswer]
  split
  · rename_i hyes
    refine ⟨rfl, fun o' i' s' hconnect => ?_⟩
    obtain ⟨c', d', hjoin⟩ := hconnect.joinable
    cases hsame hconnect
    obtain ⟨slot', hi'⟩ := hjoin.input
    cases ho.symm.trans hjoin.output
    cases hi.symm.trans hi'
    exact hjoin.below (hbelow.1 hyes)
  · rename_i hno
    have hjoin : ws'.main.shape.Joinable o i c socket.block :=
      ⟨ho, ⟨slot, hi⟩, hfreeO, hfreeI, fun hlow => hno (hbelow.2 hlow)⟩
    rw [ends_bind]
    refine (ends_tyOrFresh ho h.2.1).imp (fun t ws'' hended => ?_) fun _ => False.elim
    obtain ⟨rfl, ht⟩ := hended
    rw [ends_bind]
    refine (ends_tyOrFresh hi h.2.1).imp (fun u ws'' hended => ?_) fun _ => False.elim
    obtain ⟨rfl, hu⟩ := hended
    cases hunify : unify t u with
    | error e =>
        refine ⟨rfl, fun o' i' s' hconnect => ?_⟩
        obtain ⟨t', u', ht', hu', hunify'⟩ := hconnect.unifies
        cases hsame hconnect
        cases ht.symm.trans ht'
        cases hu.symm.trans hu'
        cases hunify.symm.trans hunify'
    | ok s =>
        refine (ends_join h hjoin ht hu).imp (fun s' ws' hended => ?_) fun _ => False.elim
        obtain ⟨rfl, hlinks⟩ := hended
        exact ⟨o, i, ⟨hr, ⟨_, _, hjoin⟩, t, u, ht, hu, hunify⟩, hlinks⟩

end WorkspaceM

end Plugboard
