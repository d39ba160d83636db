import Plugboard.Proofs.Parting

/-!
# Unplugging isolates

A block that is unplugged gets types of its own, with all that is below it. What it was plugged
together with is made anew, and names are drawn for one side or the other. What is connected
elsewhere later on leaves the types on its side alone.
-/

namespace Plugboard

open Shape Workspace

namespace WorkspaceM

open VarPool

variable {K rest : Set BlockId} {ws : Workspace} {sh flyout : Shape}

/-- A block that is made anew gets names of its side. -/
theorem ends_renew_divided (hsh : sh.Regular ∅) {b : BlockId} (hb : sh.Live b)
    (h : ws.Divided sh flyout K rest) :
    Ends (renew b) ws (fun _ => Divided sh flyout K (rest \ {b})) fun _ => False := by
  obtain ⟨rfl, rfl, inner, hparted⟩ := h
  obtain ⟨p, hp⟩ := hb
  obtain ⟨block, hblock, rfl⟩ := Graph.shape_ports_eq_some.1 hp
  have hsound := hsh.sound hp
  have hkeeps : ws.pool.Keeps (ws.pool.Beyond inner (b ∈ K)) :=
    ⟨hparted.accounted.distinct, fun _ => And.left⟩
  have hrun : Ends (renew b) ws (fun _ ws' => ws'.Accounted ws.pool →
      ws'.Divided ws.main.shape ws.flyout.shape K (rest \ {b})) fun _ => False := by
    rw [renew, ends_bind, ends_ask, Graph.block_eq_ok.2 hblock]
    dsimp only
    rw [ends_bind]
    refine ((ends_layoutFor ws block.kind).and (every_layoutFor hparted.accounted.ground hkeeps
      (hparted.accounted.ground hblock))).imp (fun layout ws' hended => ?_) fun ws' hfail =>
      hfail.1.2 ⟨hsound.known, exists_functionScheme?_eq hsh⟩
    obtain ⟨⟨hfits, -⟩, pool, rfl, hext, hlayout⟩ := hended
    have hdrawn := hparted.draw hext (b ∈ K)
    have hseats := (hsh.lists hp).seats (hsh.fits hp fun hloose => hloose.elim)
    rw [ends_onMain]
    refine (GraphM.ends_replaceSockets_seated hsh.toWired hp (hfits.slots ▸ hseats)
      (hfits.slots ▸ hsound.unrepeated.nodup_slots) (hfits.output.trans hsound.output.symm)).imp
      (fun _ g hg haccounted => ?_) fun _ => id
    obtain ⟨-, hrenewed⟩ := hg
    refine ⟨hrenewed.shape, rfl, _, ⟨.refl _, haccounted.distinct, haccounted.every⟩, hdrawn.used,
      fun c place t hc hhosts ht => ?_, hdrawn.flyout⟩
    rw [hrenewed.shape] at hhosts
    by_cases hcb : c = b
    · subst hcb
      refine hrenewed.here (P := (·.Over _)) (hlayout.imp fun t ht => ?_) hhosts ht
      exact ht.mono fun v hv => drawn_of_own hparted.used hv
    · rw [hrenewed.elsewhere hcb hhosts] at ht
      exact hdrawn.main (fun hmem => hc ⟨hmem, hcb⟩) hhosts ht
  exact ((accounted_renew b ws hparted.accounted).and hrun).imp (fun _ _ h => h.2 h.1)
    fun _ => And.right

theorem ends_reset_divided (hsh : sh.Regular ∅) (hK : sh.Closed K) {members : BlockSet}
    (hlive : ∀ b ∈ members, sh.Live b) (h : ws.Divided sh flyout K {b | b ∈ members}) :
    Ends (reset members) ws (fun _ => Divided sh flyout K ∅) fun _ => False := by
  let I : List BlockId → Workspace → Prop := fun rest ws' =>
    ws'.Divided sh flyout K {b | b ∈ rest} ∧ ∀ b ∈ rest, sh.Live b
  have hmem : ∀ {b}, b ∈ members.toList ↔ b ∈ members := Std.ExtTreeSet.mem_toList
  have hstart : I members.toList ws :=
    ⟨h.mono fun b hb => hmem.2 hb, fun b hb => hlive b (hmem.1 hb)⟩
  rw [reset, ends_bind]
  refine (Ends.mapM (I := I) (fun b rest ws' hinv => ?_) hstart).imp (fun _ ws' hinv => ?_)
    fun _ => id
  · obtain ⟨hws', hrest⟩ := hinv
    rw [List.forall_mem_cons] at hrest
    refine (ends_renew_divided hsh hrest.1 hws').imp (fun _ ws'' hws'' => ⟨?_, hrest.2⟩) fun _ => id
    exact hws''.mono fun c hc => (List.mem_cons.1 hc.1).resolve_left hc.2
  · have hdone : ws'.Divided sh flyout K ∅ := hinv.1.mono fun c hc => (List.not_mem_nil hc).elim
    obtain ⟨rfl, rfl, inner, hparted⟩ := hdone
    have hagreed := Graph.linkAgreement_linksWithin_eq hsh.toLinked members
    rw [ends_bind, ends_ask, hagreed]
    dsimp only
    rw [ends_bind, ends_onMain, ends_modify]
    have hwithin := hparted.accounted.main.linkAgreement_within hagreed
    have hs := hparted.main.linkAgreed hsh.toLinked hK members
    have hreset := hparted.setMain (hparted.accounted.main.applyTo (fun _ ht => hwithin.apply ht)
      members) (hparted.main.applyTo hs members)
    exact ⟨Graph.shape_applyTo (g := ws'.main) _ members, rfl, inner, hreset.requestRender members⟩

/-- Once all blocks in `K` and maybe others have been made anew, and the trees that they are in
have been inferred, names are on one side or the other. -/
theorem ends_refresh_divided (hsh : ws.main.shape.Regular ∅) (hK : ws.main.shape.Closed K)
    (hfun : ∀ b ∈ K, ∀ p, ws.main.shape.ports b = some p → p.kind.function? = none)
    {bs : List BlockId} (hbs : ∀ c ∈ K, ∃ b ∈ bs, ws.main.shape.Live b ∧
      ws.main.shape.Connected b c) (haccounted : ws.Accounted ws.pool) :
    Ends (refresh bs) ws (fun _ => Divided ws.main.shape ws.flyout.shape K ∅) fun _ => False := by
  have hground : ws.main.shape.Ground := Graph.ground_shape.2 haccounted.ground
  rw [refresh, ends_bind]
  refine (ends_componentsOf hsh.toWired bs).imp (fun members ws' hended => ?_) fun _ => id
  obtain ⟨rfl, hlive, hmem⟩ := hended
  -- none of the names in use is an inner name
  have hstart : ws'.Divided ws'.main.shape ws'.flyout.shape K {b | b ∈ members} := by
    refine ⟨rfl, rfl, fun _ => False, haccounted, fun _ => False.elim, ?_, ?_⟩
    · intro c place t hc _ _ v _
      refine iff_of_false id fun hcK => hc ?_
      obtain ⟨b, hb, ⟨p, hp⟩, hbc⟩ := hbs c hcK
      exact hmem b hb p hp c hbc
    · exact (haccounted.every .flyout).imp (fun _ _ _ _ => id) fun _ _ => trivial
  rw [ends_bind]
  refine (ends_reset_divided hsh hK hlive hstart).imp (fun detached ws₁ hws₁ => ?_) fun _ => id
  exact (steady_divided hsh hK hfun hground).completes_inferAround hsh _ ws₁ hws₁

/-- The component of a block that has been unplugged has names of its own. -/
theorem ends_unplug_divided (h : ws.Settled ∅) (haccounted : ws.Accounted ws.pool)
    (parent child : BlockId) :
    Ends (unplug parent child) ws (fun _ ws' => ws'.main.shape.Live child ∧
      ws'.Divided ws'.main.shape ws'.flyout.shape {c | ws'.main.shape.Connected child c} ∅)
      fun _ => True := by
  rw [unplug, ends_bind]
  refine (ends_pluggedOutput h.1.1.toWired parent child).imp (fun output ws' hended => ?_)
    fun _ _ => trivial
  obtain ⟨rfl, hr⟩ := hended
  rw [ends_bind]
  have hcut : Ends (onMain (GraphM.unlink output)) ws' (fun _ ws₁ =>
      ws₁.main.shape = ws'.main.shape.cut output ∧ ws₁.Accounted ws'.pool) fun _ => False := by
    have hunlink := accounted_onMain (fun _ => GraphM.every_unlink output) ws' haccounted
    rw [ends_onMain] at hunlink ⊢
    exact ((GraphM.ends_unlink hr).and hunlink).imp (fun _ g h => ⟨h.1.2, h.2⟩) fun _ => And.left
  refine hcut.imp (fun _ ws₁ hended => ?_) fun _ => False.elim
  obtain ⟨hshape, hws₁⟩ := hended
  have hsh : ws₁.main.shape.Regular ∅ := hshape ▸ h.1.1.cut output
  have hsite : ws₁.main.shape.site output = some (child, .output) := hshape ▸ hr
  have hlive : ws₁.main.shape.Live child := hsh.owner hsite
  have htop : ∀ d, ¬ ws₁.main.shape.Plugged child d := by
    rintro d ⟨s, x, slot, hs, hpeer, -⟩
    obtain ⟨p, hp⟩ := id hlive
    have hlists := hsh.lists hp
    cases (hlists.output_eq_some.2 hs).symm.trans (hlists.output_eq_some.2 hsite)
    rw [hshape, peer_cut h.1.1.toLinked] at hpeer
    exact hpeer.2.1 rfl
  have hfun : ∀ c ∈ {c | ws₁.main.shape.Connected child c}, ∀ p,
      ws₁.main.shape.ports c = some p → p.kind.function? = none := by
    intro c hc p hp
    rcases Relation.ReflTransGen.cases_head (hsh.toWired.below_of_connected htop hc)
      with rfl | ⟨d, ⟨s, -, -, hs, -⟩, -⟩
    · exact hsh.function?_eq_none hp hsite
    · exact hsh.function?_eq_none hp hs
  rw [ends_bind]
  have hbs : ∀ c ∈ {c | ws₁.main.shape.Connected child c}, ∃ b ∈ [parent, child],
      ws₁.main.shape.Live b ∧ ws₁.main.shape.Connected b c := fun c hc =>
    ⟨child, by simp, hlive, hc⟩
  refine (ends_refresh_divided hsh (closed_connected child) hfun hbs
    ⟨.refl _, hws₁.distinct, hws₁.every⟩).imp (fun _ ws₂ hws₂ => ?_) fun _ => False.elim
  obtain ⟨hmain, hflyout, inner, hparted⟩ := hws₂
  rw [requestSweep, ends_modify]
  rw [← hmain] at hlive hparted
  exact ⟨hlive, rfl, rfl, inner, hparted.accounted.requestSweep, hparted.used, hparted.main,
    hparted.flyout⟩

end WorkspaceM

/-- The variable is on a socket of the block or on one of its type parameters. -/
def Graph.OccursOn (g : Graph) (b : BlockId) (v : String) : Prop :=
  ∃ place t, g.shape.Hosts b place ∧ g.keptAt place = some t ∧ v ∈ t.vars

namespace Workspace

/-- The blocks of the main canvas that are `members` share no variable with any others, and none
of their types changes when others are connected. -/
structure Isolates (ws : Workspace) (members : BlockSet) : Prop where
  apart : ∀ b ∈ members, ∀ v, ws.main.OccursOn b v →
    (∀ c, c ∉ members → ¬ ws.main.OccursOn c v) ∧ ∀ c, ¬ ws.flyout.OccursOn c v
  kept : ∀ x y, (∀ b ∈ members, ¬ ws.main.shape.Hosts b (.socket x)) →
    (∀ b ∈ members, ¬ ws.main.shape.Hosts b (.socket y)) → ∀ b ∈ members, ∀ place,
      ws.main.shape.Hosts b place →
        (ws.after (.connect x y)).main.keptAt place = ws.main.keptAt place

variable {ws : Workspace} {sh flyout : Shape}

theorem Becomes.keptAt {ws' : Workspace} {s : Subst} (h : ws.Becomes sh s ws') (place : Place) :
    ws'.main.keptAt place = (ws.main.keptAt place).map s.apply := by
  cases place with
  | socket x => exact h.tyAt .main x
  | param b name => exact h.paramAt .main b name

/-- What is applied to all types when two sockets are connected changes no inner name, if neither
of the sockets is in `K`. -/
theorem Connectable.fixes {K : Set BlockId} {inner : String → Prop} {x y o i : SocketId}
    {s : Subst} (h : ws.Connectable x y o i s) (hparted : ws.main.Parted inner K ∅)
    (hx : ∀ b ∈ K, ¬ ws.main.shape.Hosts b (.socket x))
    (hy : ∀ b ∈ K, ¬ ws.main.shape.Hosts b (.socket y)) : s.Fixes inner := by
  have hout : ∀ {z b t}, z = x ∨ z = y → ws.main.shape.Hosts b (.socket z) →
      ws.main.tyAt z = some t → t.Over fun v => ¬ inner v := by
    intro z b t hz hhosts ht v hv hinner
    have hb := (hparted (Set.notMem_empty b) hhosts ht v hv).1 hinner
    exact hz.elim (fun hz => hx b hb (hz ▸ hhosts)) fun hz => hy b hb (hz ▸ hhosts)
  obtain ⟨c, d, hjoin⟩ := h.joinable
  obtain ⟨t, u, ht, hu, hunify⟩ := h.unifies
  obtain ⟨slot, hi⟩ := hjoin.input
  obtain ⟨ho, hi'⟩ : (o = x ∨ o = y) ∧ (i = x ∨ i = y) := by
    rcases h.order with horder | horder <;> cases horder <;> simp
  have ht := hout ho ⟨_, hjoin.output⟩ ht
  have hu := hout hi' ⟨_, hi⟩ hu
  have hwithin : s.Within fun v => ¬ inner v := (unify_eliminates hunify).within fun w hw =>
    (List.mem_append.1 hw).elim (ht w) (hu w)
  exact fun v hv => (hwithin v).resolve_right fun hbound => hbound.1 hv

theorem Divided.isolates {K : Set BlockId} {members : BlockSet} (hsettled : ws.Settled ∅)
    (h : ws.Divided sh flyout K ∅) (hmem : ∀ c, c ∈ members ↔ c ∈ K) : ws.Isolates members := by
  obtain ⟨-, -, inner, hparted⟩ := h
  have hinner : ∀ {b place t}, b ∈ members → ws.main.shape.Hosts b place →
      ws.main.keptAt place = some t → t.Over inner := fun {b place t} hb hhosts ht v hv =>
    (hparted.main (Set.notMem_empty b) hhosts ht v hv).2 ((hmem b).1 hb)
  refine ⟨fun b hb v ⟨place, t, hhosts, ht, hv⟩ => ⟨?_, ?_⟩, fun x y hx hy b hb place hhosts => ?_⟩
  · rintro c hc ⟨place', t', hhosts', ht', hv'⟩
    refine hc ((hmem c).2 ?_)
    exact (hparted.main (Set.notMem_empty c) hhosts' ht' v hv').1 (hinner hb hhosts ht v hv)
  · rintro c ⟨place', t', hhosts', ht', hv'⟩
    exact hparted.flyout.keptAt ht' v hv' (hinner hb hhosts ht v hv)
  · have hkept : Ends (WorkspaceM.connect x y) ws
        (fun _ ws' => ws'.main.keptAt place = ws.main.keptAt place)
        fun ws' => ws'.main.keptAt place = ws.main.keptAt place := by
      refine (WorkspaceM.ends_connect hsettled x y).imp (fun s ws' hended => ?_)
        fun ws' hfail => hfail.1 ▸ rfl
      obtain ⟨o, i, hconnectable, hlinks⟩ := hended
      rw [(hlinks.becomes hconnectable).keptAt]
      cases ht : ws.main.keptAt place with
      | none => rfl
      | some t =>
          have hfixes := hconnectable.fixes hparted.main (fun c hc => hx c ((hmem c).2 hc))
            fun c hc => hy c ((hmem c).2 hc)
          exact congrArg some (Subst.apply_of_fixes hfixes (hinner hb hhosts ht))
    exact (ends_map.2 hkept).state

/-- A block that is unplugged has no variables in common with what it is no longer plugged
together with, nor has any block in its component. -/
theorem Reachable.unplug_isolates
    (h : ws.Reachable fun ws command => command.AddsUnrepeated ws ∧ command.AddsGround ws)
    {parent child : BlockId} (hdone : (ws.perform (.unplug parent child)).1.isOk = true) :
    ∃ members, (ws.after (.unplug parent child)).main.component child = .ok members ∧
      (ws.after (.unplug parent child)).Isolates members := by
  have hunrepeated : ws.Reachable Command.AddsUnrepeated := h.mono fun _ _ => And.left
  have hground : ws.Reachable Command.AddsGround := h.mono fun _ _ => And.right
  have hallowed : Command.AddsUnrepeated ws (.unplug parent child) := trivial
  have hafter := (hunrepeated.after hallowed).settled
  have hends : Ends (WorkspaceM.perform (.unplug parent child)) ws
      (fun _ ws' => ws'.main.shape.Live child ∧
        ws'.Divided ws'.main.shape ws'.flyout.shape {c | ws'.main.shape.Connected child c} ∅)
      fun _ => True := ends_map.2
    (WorkspaceM.ends_unplug_divided hunrepeated.settled hground.accounted parent child)
  obtain ⟨-, ⟨p, hp⟩, hdivided⟩ := hends.of_isOk hdone
  obtain ⟨members, hrun, hmem⟩ := Graph.exists_component_eq hafter.1.1.toWired hp
  exact ⟨members, hrun, hdivided.isolates hafter hmem⟩

set_option maxRecDepth 4000 in
/-- A list that is an item of another. -/
theorem isolates_after_unplug :
    let ws := [.add .main (.list 1), .add .main (.list 0), .plug ⟨1⟩ ⟨0⟩ "ITEM0"].foldl after
      (ofSettings default)
    (ws.perform (.unplug ⟨0⟩ ⟨1⟩)).1.isOk = true ∧
      ∃ members, (ws.after (.unplug ⟨0⟩ ⟨1⟩)).main.component ⟨1⟩ = .ok members ∧
        (ws.after (.unplug ⟨0⟩ ⟨1⟩)).Isolates members := by
  intro ws
  have hdone : (ws.perform (.unplug ⟨0⟩ ⟨1⟩)).1.isOk = true := by
    subst ws
    cbv
  exact ⟨hdone, Reachable.unplug_isolates ((Reachable.start default).foldl
    (by simp [Command.AddsUnrepeated, BlockKind.Unrepeated, Command.AddsGround, BlockKind.Ground]))
    hdone⟩

end Workspace

end Plugboard
