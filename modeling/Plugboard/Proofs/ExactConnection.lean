import Plugboard.Proofs.ConnectionOrder

/-!
# What a connection does, and nothing else

A connection is accepted exactly when its two sockets are free, one gives and the other takes, no
block would come to be below itself, and the types have a unifier. It then makes the two sockets
each other's peers and puts the images of all types in their place; blocks, sockets, warnings and
the pool are otherwise as before. One that is refused changes nothing at all.
-/

namespace Plugboard

open Shape Workspace

namespace Graph

/-- The output `o` can be plugged into the input `i`. -/
structure Admits (g : Graph) (o i : SocketId) (output input : Socket) : Prop where
  gives : g.sockets[o]? = some output
  takes : g.sockets[i]? = some input
  isOutput : output.isOutput = true
  isInput : input.isOutput = false
  outputFree : output.peer = none
  inputFree : input.peer = none
  /-- The block that takes is neither the one that gives nor below it. -/
  notBelow : ∃ below, g.descendants output.block = .ok below ∧ input.block ∉ below
  unifiable : ∃ t u, output.ty = some t ∧ input.ty = some u ∧ ∃ r : Subst, r.apply t = r.apply u

variable {g : Graph} {o i : SocketId}

theorem plugTogether_comm {a b : SocketId} (hne : a ≠ b) :
    g.plugTogether a b = g.plugTogether b a := by
  have hsockets : (g.plugTogether a b).sockets = (g.plugTogether b a).sockets := by
    refine Std.ExtTreeMap.ext_getElem? fun x => ?_
    simp only [plugTogether, setPeer, getElem?_modifySocket]
    by_cases ha : a = x
    · subst ha
      simp [hne.symm]
    · by_cases hb : b = x <;> simp [ha, hb]
  change ({ g with sockets := (g.plugTogether a b).sockets } : Graph) = _
  rw [hsockets]
  rfl

theorem socketTy_of_tyAt {s : SocketId} {t : Ty} (h : g.tyAt s = some t) :
    g.socketTy s = .ok (some t) := by
  obtain ⟨socket, hsocket, hty⟩ := Option.bind_eq_some_iff.1 h
  rw [socketTy, Graph.socket, hsocket]
  exact congrArg _ hty

end Graph

namespace Workspace

/-- What is required of two sockets, told by what can be looked up on the canvas. -/
theorem exists_connectable_iff {ws : Workspace} (h : ws.Settled ∅) {a b o i : SocketId} :
    (∃ s, ws.Connectable a b o i s) ↔
      ((o, i) = (a, b) ∨ (o, i) = (b, a)) ∧ ∃ output input, ws.main.Admits o i output input := by
  constructor
  · rintro ⟨s, horder, ⟨c, d, hjoin⟩, t, u, ht, hu, hunify⟩
    obtain ⟨slot, hi⟩ := hjoin.input
    obtain ⟨output, houtput, ho⟩ := Graph.shape_site_eq_some.1 hjoin.output
    obtain ⟨input, hinput, hi⟩ := Graph.shape_site_eq_some.1 hi
    obtain ⟨rfl, hrole⟩ := Prod.mk.inj ho
    obtain ⟨rfl, hrole'⟩ := Prod.mk.inj hi
    obtain ⟨p, hp⟩ := h.1.1.owner hjoin.output
    obtain ⟨below, hbelow, hmem⟩ := Graph.exists_descendants_eq h.1.1.toWired hp
    refine ⟨horder, output, input, houtput, hinput, by simp [Socket.isOutput, hrole],
      by simp [Socket.isOutput, hrole'], ?_, ?_, ⟨below, hbelow, fun hin => ?_⟩, t, u, ?_, ?_,
      s, ?_⟩
    · simpa [Graph.shape, houtput] using hjoin.outputFree
    · simpa [Graph.shape, hinput] using hjoin.inputFree
    · exact hjoin.below ((hmem _).1 hin)
    · simpa [Graph.tyAt, houtput] using ht
    · simpa [Graph.tyAt, hinput] using hu
    · exact unify_apply_eq hunify
  · rintro ⟨horder, output, input, hadmits⟩
    obtain ⟨below, hbelow, hout⟩ := hadmits.notBelow
    obtain ⟨t, u, ht, hu, r, hr⟩ := hadmits.unifiable
    obtain ⟨s, hs⟩ := exists_unify_of_bind_eq hr
    have hrole : output.role = .output := by simpa [Socket.isOutput] using hadmits.isOutput
    have hslot : ∃ slot, input.role = .input slot := by
      cases hrole' : input.role with
      | output => simpa [Socket.isOutput, hrole'] using hadmits.isInput
      | input slot => exact ⟨slot, rfl⟩
    obtain ⟨slot, hslot⟩ := hslot
    have ho : ws.main.shape.site o = some (output.block, .output) :=
      Graph.shape_site_eq_some.2 ⟨output, hadmits.gives, by rw [hrole]⟩
    have hi : ws.main.shape.site i = some (input.block, .input slot) :=
      Graph.shape_site_eq_some.2 ⟨input, hadmits.takes, by rw [hslot]⟩
    obtain ⟨p, hp⟩ := h.1.1.owner ho
    obtain ⟨below', hbelow', hmem⟩ := Graph.exists_descendants_eq h.1.1.toWired hp
    cases hbelow.symm.trans hbelow'
    refine ⟨s, horder, ⟨_, _, ho, ⟨slot, hi⟩, ?_, ?_, fun hlow => hout ((hmem _).2 hlow)⟩, t, u,
      ?_, ?_, hs⟩
    · simp [Graph.shape, hadmits.gives, hadmits.outputFree]
    · simp [Graph.shape, hadmits.takes, hadmits.inputFree]
    · simp [Graph.tyAt, hadmits.gives, ht]
    · simp [Graph.tyAt, hadmits.takes, hu]

end Workspace

namespace Workspace

open WorkspaceM

variable {ws : Workspace}

/-- After the link, both sockets have what the substitution makes of their types. -/
theorem Links.exists_socketTy {ws' : Workspace} {a b o i : SocketId} {s : Subst}
    (h : ws.Links o i s ws') (hc : ws.Connectable a b o i s) :
    ∃ t, ws'.main.socketTy o = .ok (some t) ∧ ws'.main.socketTy i = .ok (some t) := by
  obtain ⟨t, u, ht, hu, hunify⟩ := hc.unifies
  have hty : ∀ x, ws'.main.tyAt x = (ws.main.tyAt x).map s.apply := fun x => by
    rw [h.main, Graph.tyAt_mapTypes, Graph.tyAt_plugTogether]
  refine ⟨s.apply t, Graph.socketTy_of_tyAt ?_, Graph.socketTy_of_tyAt ?_⟩
  · rw [hty, ht, Option.map_some]
  · rw [hty, hu, Option.map_some, unify_apply_eq hunify]

theorem Links.symm {ws' : Workspace} {a b : SocketId} {s : Subst} (hne : a ≠ b)
    (h : ws.Links a b s ws') : ws.Links b a s ws' where
  main := Graph.plugTogether_comm hne ▸ h.main
  flyout := h.flyout
  pool := h.pool

/-- Whether two sockets can be connected, what then happens to them, and that otherwise nothing
happens. -/
theorem connect_cases (h : ws.Settled ∅) (a b : SocketId) :
    (∃ o i s ws', ws.Connectable a b o i s ∧
      ws.perform (.connect a b) = (.ok (.subst s), ws') ∧ ws.Links o i s ws') ∨
    (∀ o i s, ¬ ws.Connectable a b o i s) ∧
      ∃ e, ws.perform (.connect a b) = (.error e, ws) := by
  have hends : Ends (WorkspaceM.perform (.connect a b)) ws
      (fun reply ws' => ∃ s, reply = .subst s ∧
        ∃ o i, ws.Connectable a b o i s ∧ ws.Links o i s ws')
      fun ws' => ws' = ws ∧ ∀ o i s, ¬ ws.Connectable a b o i s :=
    ends_map.2 ((ends_connect h a b).imp (fun s _ hended => ⟨s, rfl, hended⟩) fun _ => id)
  rw [perform]
  unfold Ends at hends
  generalize (WorkspaceM.perform (.connect a b)).run ws = out at hends ⊢
  obtain ⟨e | reply, ws'⟩ := out
  · exact .inr ⟨hends.2, e, congrArg _ hends.1⟩
  · obtain ⟨s, rfl, o, i, hc, hlinks⟩ := hends
    exact .inl ⟨o, i, s, ws', hc, rfl, hlinks⟩

/-- A connection is made exactly when the sockets are free, of opposite directions, not above each
other the wrong way round, and of types with a unifier. It links them and applies its answer to
both canvases, which makes the linked types equal, and changes nothing else. One that is refused
changes nothing. -/
theorem Reachable.connect_exact (h : ws.Reachable Command.AddsUnrepeated) (a b : SocketId) :
    let outcome := ws.perform (.connect a b)
    ((∃ s, outcome.1 = .ok (.subst s)) ↔ ∃ o i, ((o, i) = (a, b) ∨ (o, i) = (b, a)) ∧
        ∃ output input, ws.main.Admits o i output input) ∧
    (∀ s, outcome.1 = .ok (.subst s) → ws.Links a b s outcome.2 ∧
      ∃ t, outcome.2.main.socketTy a = .ok (some t) ∧
        outcome.2.main.socketTy b = .ok (some t)) ∧
    ((∃ s, outcome.1 = .ok (.subst s)) ∨ outcome.2 = ws ∧ ∃ e, outcome.1 = .error e) := by
  have hsettled := h.settled
  have hiff : (∃ o i s, ws.Connectable a b o i s) ↔
      ∃ o i, ((o, i) = (a, b) ∨ (o, i) = (b, a)) ∧
        ∃ output input, ws.main.Admits o i output input :=
    exists_congr fun o => exists_congr fun i => exists_connectable_iff hsettled
  rw [← hiff]
  rcases connect_cases hsettled a b with
    ⟨o, i, s, ws', hc, hrun, hlinks⟩ | ⟨hnone, e, hrun⟩
  · simp only [hrun]
    refine ⟨⟨fun _ => ⟨o, i, s, hc⟩, fun _ => ⟨s, rfl⟩⟩, fun s' hs' => ?_, .inl ⟨s, rfl⟩⟩
    cases hs'
    obtain ⟨t, ho, hi⟩ := hlinks.exists_socketTy hc
    obtain ⟨c, d, hjoin⟩ := hc.joinable
    rcases hc.order with horder | horder
    · cases horder
      exact ⟨hlinks, t, ho, hi⟩
    · cases horder
      exact ⟨hlinks.symm hjoin.ne, t, hi, ho⟩
  · rw [hrun]
    refine ⟨⟨?_, fun ⟨o, i, s, hc⟩ => (hnone o i s hc).elim⟩, ?_, .inr ⟨rfl, e, rfl⟩⟩
    · rintro ⟨s, hs⟩
      cases hs
    · intro s hs
      cases hs

/-- A variable is plugged into an application as its function, the input named first. -/
theorem connect_exact_apply_variable :
    let ws := [.add .main .apply, .add .main (.variable "x")].foldl after (ofSettings default)
    let s : Subst := .ofList [("C", .fn (.var "A") (.var "B"))]
    let ws' := ws.after (.connect ⟨1⟩ ⟨3⟩)
    ws.Links ⟨1⟩ ⟨3⟩ s ws' ∧
      ∃ t, ws'.main.socketTy ⟨1⟩ = .ok (some t) ∧ ws'.main.socketTy ⟨3⟩ = .ok (some t) := by
  intro ws s ws'
  have hrun : (ws.perform (.connect ⟨1⟩ ⟨3⟩)).1 = .ok (.subst s) := by cbv
  exact (Reachable.connect_exact
    ((Reachable.start default).foldl (by simp [Command.AddsUnrepeated, BlockKind.Unrepeated]))
    ⟨1⟩ ⟨3⟩).2.1 s hrun

end Workspace

end Plugboard
