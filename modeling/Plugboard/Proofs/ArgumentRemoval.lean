import Plugboard.Proofs.EditsSettle
import Plugboard.Proofs.LostArguments
import Plugboard.Proofs.Renewal

/-!
# Taking an argument away from calls

The arguments of a call are unplugged, the call is made anew with one argument less, and what
was plugged in is plugged in again, one place further up where it was behind the one taken away.
Nothing is below a block afterwards that was not below it before, other blocks keep their sockets,
and so do the links of these.
-/

namespace Plugboard

open Shape Workspace

theorem Graph.mem_callersOf {g : Graph} {name : String} {c : BlockId} :
    c ∈ g.callersOf name ↔ ∃ arity, g.shape.IsCall c name arity := by
  rw [callersOf, List.mem_filter, beq_iff_eq, Option.bind_eq_some_iff]
  constructor
  · rintro ⟨-, block, hblock, hname⟩
    cases hkind : block.kind <;> rw [hkind] at hname <;> cases hname
    exact ⟨_, _, shape_ports_eq_some.2 ⟨block, hblock, rfl⟩, hkind⟩
  · rintro ⟨arity, p, hp, hkind⟩
    obtain ⟨block, hblock, rfl⟩ := shape_ports_eq_some.1 hp
    refine ⟨Std.ExtTreeMap.mem_keys.2 (contains_iff.2 ⟨_, hp⟩), block, hblock, ?_⟩
    rw [show block.kind = _ from hkind]
    rfl

theorem Graph.nodup_callersOf (g : Graph) (name : String) : (g.callersOf name).Nodup :=
  g.blocks.nodup_keys.filter _

namespace WorkspaceM

variable {ws : Workspace} {caller : BlockId} {inputs : List SocketId}

theorem ends_unlinkAll (h : ws.Settled ∅) (hnodup : inputs.Nodup)
    (hinputs : ∀ s ∈ inputs, ∃ slot, ws.main.shape.site s = some (caller, .input slot)) :
    Ends (inputs.mapM fun input => onMain (GraphM.unlink input)) ws
      (fun plugged ws' => ws'.Settled ∅ ∧ Unplugged ws.main.shape ws'.main.shape inputs plugged)
      fun _ => False := by
  induction inputs generalizing ws with
  | nil =>
      refine ⟨h, rfl, rfl, fun {s d} => ?_, rfl⟩
      simp
  | cons s inputs ih =>
      obtain ⟨slot, hslot⟩ := hinputs s List.mem_cons_self
      rw [List.nodup_cons] at hnodup
      rw [List.mapM_cons, ends_bind, ends_onMain]
      refine ((GraphM.ends_unlink hslot).and (GraphM.every_unlink s ws.main h.2.1)).imp
        (fun peer g ⟨⟨hpeer, hg⟩, htyped⟩ => ?_) fun _ => And.left
      have hcut : Settled ∅ { ws with main := g } := h.main (hg ▸ h.1.1.cut s) htyped rfl
      have hinputs' : ∀ x ∈ inputs, ∃ slot, g.shape.site x = some (caller, .input slot) := by
        rw [hg]
        exact fun x hx => hinputs x (List.mem_cons_of_mem s hx)
      rw [ends_bind]
      refine (ih hcut hnodup.2 hinputs').imp (fun plugged ws' ⟨hws', hrest⟩ => ⟨hws', ?_⟩)
        fun _ => id
      rw [hpeer]
      exact Unplugged.cons h.1.1.toLinked hinputs hnodup.1 (hg ▸ hrest)

/-- Nothing is plugged in that was not plugged in at first. -/
theorem ends_plugArguments {sh₀ : Shape} (hacyclic : sh₀.Acyclic) (h : ws.Settled ∅)
    (hlive : ∃ p, ws.main.shape.ports caller = some p)
    (hplugged : ∀ {c d}, ws.main.shape.Plugged c d → sh₀.Plugged c d)
    {rest : List (Option SocketId × Nat)} (hrest : Pending sh₀ ws.main.shape caller rest) :
    Ends (rest.forM fun (output, i) => plugArgument caller i output) ws
      (fun _ ws' => ws'.Settled ∅ ∧ Replugged caller rest ws.main.shape ws'.main.shape)
      fun _ => False := by
  induction rest generalizing ws with
  | nil => exact ⟨h, .nil _⟩
  | cons entry rest ih =>
      obtain ⟨output, i⟩ := entry
      change Ends (plugArgument caller i output >>= fun _ => rest.forM _) ws _ _
      rw [ends_bind]
      cases output with
      | none =>
          exact (ih h hlive hplugged hrest.tail).imp (fun _ _ hws' => ⟨hws'.1, hws'.2.cons_none⟩)
            fun _ => id
      | some o =>
          obtain ⟨hfree, c, hc, ho⟩ := hrest.output o i List.mem_cons_self
          obtain ⟨p, hp⟩ := hlive
          obtain ⟨s, hs⟩ := hrest.seat _ i List.mem_cons_self
          have hplugged' : ∀ {x y}, (ws.main.shape.join o s).Plugged x y → sh₀.Plugged x y :=
            fun hxy => (plugged_join ho hs hxy).elim hplugged fun ⟨hx, hy⟩ => hx ▸ hy ▸ hc
          rw [plugArgument, ends_bind, ends_ask,
            (Graph.inputNamed_eq_ok h.1.1.toWired hp).2 hs]
          dsimp only
          rw [ends_onMain]
          refine ((GraphM.ends_link ho hs).and (GraphM.every_link o s ws.main h.2.1)).imp
            (fun _ g ⟨hg, htyped⟩ => ?_) fun _ => And.left
          have hjoin := h.1.1.join ho hs hfree (hrest.input _ i List.mem_cons_self s hs)
            (hacyclic.mono hplugged')
          have hsettled : Settled ∅ { ws with main := g } := h.main (hg ▸ hjoin) htyped rfl
          refine (ih hsettled ⟨p, ?_⟩ ?_ ?_).imp
            (fun _ ws' ⟨hws', hreplugged⟩ => ⟨hws', .cons_some ho hs hfree (hg ▸ hreplugged)⟩)
            fun _ => id
          · exact hg ▸ hp
          · exact hg ▸ hplugged'
          · exact hg ▸ hrest.join hs

/-- A call that has been made anew, and what waits to be plugged in again. -/
structure Remade (sh₀ : Shape) (caller : BlockId) (inputs : List SocketId)
    (rest : List (Option SocketId × Nat)) (ws : Workspace) : Prop where
  settled : ws.Settled ∅
  live : ∃ p, ws.main.shape.ports caller = some p
  pending : Pending sh₀ ws.main.shape caller rest
  elsewhere : Elsewhere caller sh₀ ws.main.shape
  output : ∀ {o c}, ws.main.shape.site o = some (c, .output) ↔ sh₀.site o = some (c, .output)
  call : ∀ {name arity c slot}, sh₀.IsCall caller name arity →
    (ws.main.shape.PluggedAt c caller slot ↔ sh₀.PluggedAt c caller slot ∧
      (∀ i < inputs.length, slot ≠ Slot.arg i) ∧ ∃ i, i + 1 < arity ∧ slot = Slot.arg i)
  other : ∀ {b c slot}, b ≠ caller →
    (ws.main.shape.PluggedAt c b slot ↔ sh₀.PluggedAt c b slot)

/-- With one argument less, the call has room for what was plugged into the others. -/
theorem ends_remake {sh₀ : Shape} (hsh₀ : sh₀.Wired) (harguments : sh₀.Arguments caller inputs)
    {index : Nat} (hindex : index < inputs.length) (h : ws.Settled ∅)
    {plugged : List (Option SocketId)} (hunplugged : Unplugged sh₀ ws.main.shape inputs plugged) :
    Ends (do
        setKind caller (·.mapArity (· - 1))
        renew caller) ws
      (fun _ => Remade sh₀ caller inputs (plugged.eraseIdx index).zipIdx) fun _ => False := by
  obtain ⟨name, arity, ⟨p, hp, hkind⟩, harity⟩ := harguments.call
  have hcall : sh₀.IsCall caller name arity := ⟨p, hp, hkind⟩
  rw [← hunplugged.ports] at hp
  rw [ends_bind]
  refine (ends_mapArity h (Set.empty_subset {caller}) rfl hp (· - 1)).imp
    (fun _ ws₂ ⟨hws₂, hshape, hflyout⟩ => ?_) fun _ => False.elim
  have hp₂ : ws₂.main.shape.ports caller = some { p with kind := p.kind.mapArity (· - 1) } := by
    rw [hshape]
    exact if_pos rfl
  have hsite₂ : ws₂.main.shape.site = ws.main.shape.site := by
    rw [hshape]
    rfl
  have hpeer₂ : ws₂.main.shape.peer = ws.main.shape.peer := by
    rw [hshape]
    rfl
  refine (ends_renew hws₂ hp₂).imp
    (fun _ ws₃ ⟨⟨inputs', hrefit⟩, htyped, hflyout'⟩ => ?_) fun _ => False.elim
  have hslots : ∀ {slot}, slot ∈ (p.kind.mapArity (· - 1)).slots ↔
      ∃ i, i + 1 < arity ∧ slot = Slot.arg i := by
    intro slot
    rw [hkind]
    change slot ∈ (List.range (arity - 1)).map Slot.arg ↔ _
    simp only [List.mem_map, List.mem_range, Nat.lt_sub_iff_add_lt, eq_comm]
  have hplugged : ∀ {c d slot}, ws₃.main.shape.PluggedAt c d slot ↔ (sh₀.PluggedAt c d slot ∧
      ¬ (d = caller ∧ ∃ i < inputs.length, slot = Slot.arg i)) ∧
        (d = caller → ∃ i, i + 1 < arity ∧ slot = Slot.arg i) := by
    intro c d slot
    rw [hrefit.pluggedAt_iff hws₂.1.1.toWired, hslots,
      ← hunplugged.pluggedAt_iff hsh₀ harguments, hshape]
    exact Iff.rfl
  constructor
  case settled =>
    exact hws₂.main ((hws₂.1.1.refit hp₂ hrefit).mono (sdiff_self (a := {caller})).le) htyped
      hflyout'
  case live =>
    rw [hrefit.ports]
    exact exists_ports_setPorts _ ⟨_, hp₂⟩
  case pending =>
    refine pending_of_refit hsh₀ hws₂.1.1.toWired harguments hunplugged hsite₂ hpeer₂ hrefit
      fun i hi => hslots.2 ⟨i, ?_, rfl⟩
    have hlength : plugged.length = inputs.length := by
      rw [hunplugged.was, List.length_map]
    rw [List.length_eraseIdx_of_lt (hlength ▸ hindex), hlength] at hi
    omega
  case elsewhere =>
    constructor
    · intro c hc
      rw [hrefit.ports, ← hunplugged.ports]
      refine (if_neg hc).trans ?_
      rw [hshape]
      exact if_neg hc
    · intro s c role hc
      rw [hrefit.elsewhere (.inl hc), hsite₂, hunplugged.site]
  case output =>
    intro o c
    rw [hrefit.elsewhere (.inr rfl), hsite₂, hunplugged.site]
  case call =>
    intro name' arity' c slot hcall'
    obtain ⟨rfl, rfl⟩ := hcall.unique hcall'
    rw [hplugged]
    simp only [true_and, forall_const, not_exists, not_and, and_assoc]
  case other =>
    intro b c slot hb
    rw [hplugged]
    simp only [hb, false_and, not_false_eq_true, and_true, IsEmpty.forall_iff]

/-- A call that is made anew has lost an argument, once the others are plugged in again. -/
theorem Remade.argumentLost {sh₀ sh : Shape} (hsh₀ : sh₀.Wired)
    (harguments : sh₀.Arguments caller inputs) {index : Nat} (hindex : index < inputs.length)
    {rest : List (Option SocketId × Nat)}
    (hrest : rest = ((inputs.map sh₀.peer).eraseIdx index).zipIdx)
    (h : Remade sh₀ caller inputs rest ws) (hreplugged : Replugged caller rest ws.main.shape sh) :
    ArgumentLost index inputs.length caller sh₀ sh where
  elsewhere :=
    ⟨fun hc => hreplugged.ports ▸ h.elsewhere.ports hc,
      fun hc => hreplugged.site ▸ h.elsewhere.site hc⟩
  call := by
    intro name arity hcall c slot
    rw [hreplugged.pluggedAt, h.call hcall, eq_self, true_and]
    simp only [argumentAfter_eq_some hindex]
    have hwaiting := fun j => exists_waiting_iff hsh₀ harguments index j c
    rw [← hrest] at hwaiting
    constructor
    · rintro (⟨hplug, hbehind, i, hi, rfl⟩ | ⟨o, j, hmem, rfl, ho⟩)
      · exact ⟨i, i, .inr ⟨Nat.not_lt.1 fun hlt => hbehind i hlt rfl, hi, rfl⟩, rfl, hplug⟩
      · obtain ⟨i, hi, hij, hplug⟩ := (hwaiting j).1 ⟨o, hmem, h.output.1 ho⟩
        exact ⟨i, j, .inl ⟨hi, hij⟩, rfl, hplug⟩
    · rintro ⟨i, j, ⟨hi, hij⟩ | ⟨hbehind, hi, rfl⟩, rfl, hplug⟩
      · obtain ⟨o, hmem, ho⟩ := (hwaiting j).2 ⟨i, hi, hij, hplug⟩
        exact .inr ⟨o, j, hmem, rfl, h.output.2 ho⟩
      · refine .inl ⟨hplug, fun i' hi' hij => ?_, i, hi, rfl⟩
        cases Slot.arg_injective hij
        exact absurd hi' (Nat.not_lt.2 hbehind)
  other := by
    intro b c slot hb
    rw [hreplugged.pluggedAt, h.other hb, or_iff_left fun hcall => hb hcall.1]

theorem Remade.plugged {sh₀ : Shape} (harguments : sh₀.Arguments caller inputs)
    {rest : List (Option SocketId × Nat)} (h : Remade sh₀ caller inputs rest ws) {c d : BlockId}
    (hplug : ws.main.shape.Plugged c d) : sh₀.Plugged c d := by
  obtain ⟨s, t, slot, hs, hpeer, ht⟩ := hplug
  have hplug : ws.main.shape.PluggedAt c d slot := ⟨s, t, hs, hpeer, ht⟩
  by_cases hd : d = caller
  · obtain ⟨name, arity, hcall, -⟩ := harguments.call
    subst hd
    exact ((h.call hcall).1 hplug).1.plugged
  · exact ((h.other hd).1 hplug).plugged

theorem ends_removeArgument (h : ws.Settled ∅) (harguments : ws.main.shape.Arguments caller inputs)
    {index : Nat} (hindex : index < inputs.length) :
    Ends (removeArgument caller inputs index) ws (fun _ ws' => ws'.Settled ∅ ∧
      ArgumentLost index inputs.length caller ws.main.shape ws'.main.shape) fun _ => False := by
  have hwired := h.1.1.toWired
  rw [removeArgument, ends_bind]
  refine (ends_unlinkAll h harguments.nodup fun _ => harguments.exists_slot).imp
    (fun plugged ws₁ ⟨hws₁, hunplugged⟩ => ?_) fun _ => False.elim
  have hrest : ∀ removed : Option BlockId, Ends (do
      setKind caller (·.mapArity (· - 1))
      let _ ← renew caller
      (plugged.eraseIdx index).zipIdx.forM fun (output, i) => plugArgument caller i output
      return removed) ws₁ (fun _ ws' => ws'.Settled ∅ ∧
        ArgumentLost index inputs.length caller ws.main.shape ws'.main.shape)
        fun _ => False := by
    intro removed
    have hremake := ends_remake hwired harguments hindex hws₁ hunplugged
    rw [ends_bind] at hremake ⊢
    refine hremake.imp (fun _ ws₂ hrenew => ?_) fun _ => id
    rw [ends_bind]
    refine hrenew.imp (fun _ ws₃ hws₃ => ?_) fun _ => id
    rw [ends_bind]
    refine (ends_plugArguments h.1.1.acyclic hws₃.settled hws₃.live (hws₃.plugged harguments)
      hws₃.pending).imp (fun _ ws' ⟨hws', hreplugged⟩ => ⟨hws', ?_⟩) fun _ => id
    exact hws₃.argumentLost hwired harguments hindex (hunplugged.was ▸ rfl) hreplugged
  -- the block that is plugged in where the argument was only goes into the answer
  cases hgone : plugged[index]?.join with
  | none => exact hrest none
  | some output =>
      dsimp only
      have hmem : some output ∈ plugged := List.mem_of_getElem? (Option.join_eq_some_iff.1 hgone)
      obtain ⟨-, s, -, hs⟩ := hunplugged.exists_input hwired.toLinked hmem
      obtain ⟨r, hr⟩ := hwired.site_of_peer hs
      rw [← hunplugged.site] at hr
      obtain ⟨socket, hsocket, -⟩ := Graph.shape_site_eq_some.1 hr
      rw [ends_bind, ends_map, ends_map, ends_ask, Graph.socket_eq_ok.2 hsocket]
      exact hrest (some socket.block)

theorem ends_arguments (h : ws.main.shape.Wired) {p : Ports}
    (hp : ws.main.shape.ports caller = some p) (is : List Nat) :
    Ends (is.mapM fun i => ask (·.inputNamed caller (Slot.arg i))) ws
      (fun inputs ws' => ws' = ws ∧ ws.main.shape.Seats caller inputs (is.map Slot.arg))
      (· = ws) := by
  induction is with
  | nil => exact ⟨rfl, rfl⟩
  | cons i is ih =>
      rw [List.mapM_cons, ends_bind, ends_ask]
      cases hinput : ws.main.inputNamed caller (Slot.arg i) with
      | error e => rfl
      | ok s =>
          have hs := (Graph.inputNamed_eq_ok h hp).1 hinput
          dsimp only
          rw [ends_bind]
          refine ih.imp (fun inputs ws' ⟨hws', hseats⟩ => ⟨hws', ?_⟩) fun _ => id
          exact congrArg₂ List.cons hs hseats

theorem arguments_of_seats {sh : Shape} (h : sh.Regular ∅) {name : String} {arity : Nat}
    (hcall : sh.IsCall caller name arity) {n : Nat}
    (hseats : sh.Seats caller inputs ((List.range n).map Slot.arg)) :
    sh.Arguments caller inputs ∧ inputs.length = n := by
  have hlength : inputs.length = n := by
    simpa using congrArg List.length hseats
  refine ⟨⟨⟨name, arity, hcall, ?_⟩, hlength ▸ hseats⟩, hlength⟩
  -- the call has every argument that is seated
  obtain ⟨p, hp, hkind⟩ := hcall
  by_contra hless
  obtain ⟨s, hs⟩ := hseats.exists_socket
    (List.mem_map_of_mem (List.mem_range.2 (hlength ▸ Nat.not_le.1 hless)))
  have hmem := List.mem_map_of_mem (f := sh.slot) ((h.lists hp).mem_inputs.2 ⟨_, hs⟩)
  rw [h.fits hp False.elim, hkind, Shape.slot, hs] at hmem
  obtain ⟨slot, hslot, heq⟩ := List.mem_map.1 hmem
  obtain ⟨i, hi, rfl⟩ := List.mem_map.1 hslot
  exact absurd (Slot.arg_injective (Option.some.inj heq)) (List.mem_range.1 hi).ne

theorem ends_calls (h : ws.main.shape.Regular ∅) {callers : List BlockId}
    (hcalls : ∀ c ∈ callers, ∃ name arity, ws.main.shape.IsCall c name arity) (n : Nat) :
    Ends (callers.mapM fun caller => do
        let inputs ← (List.range n).mapM fun i => ask (·.inputNamed caller (Slot.arg i))
        return (caller, inputs)) ws
      (fun calls ws' => ws' = ws ∧ calls.map (·.1) = callers ∧
        ∀ call ∈ calls, ws.main.shape.Arguments call.1 call.2 ∧ call.2.length = n) (· = ws) := by
  induction callers with
  | nil => exact ⟨rfl, rfl, fun call hcall => (List.not_mem_nil hcall).elim⟩
  | cons caller callers ih =>
      rw [List.forall_mem_cons] at hcalls
      obtain ⟨name, arity, hcall⟩ := hcalls.1
      obtain ⟨p, hp, -⟩ := id hcall
      rw [List.mapM_cons, ends_bind, ends_bind]
      refine (ends_arguments h.toWired hp (List.range n)).imp (fun inputs ws' hended => ?_)
        fun _ => id
      obtain ⟨rfl, hseats⟩ := hended
      rw [ends_pure, ends_bind]
      refine (ih hcalls.2).imp (fun calls ws'' hended => ?_) fun _ => id
      obtain ⟨hws'', hcallers, hall⟩ := hended
      refine ⟨hws'', congrArg (caller :: ·) hcallers, List.forall_mem_cons.2 ⟨?_, hall⟩⟩
      exact arguments_of_seats h hcall hseats

/-- Calls of distinct blocks that are still to lose an argument. -/
structure Losing (index : Nat) (calls : List (BlockId × List SocketId)) (ws : Workspace) :
    Prop where
  settled : ws.Settled ∅
  arguments : ∀ call ∈ calls, ws.main.shape.Arguments call.1 call.2
  inRange : ∀ call ∈ calls, index < call.2.length
  nodup : (calls.map (·.1)).Nodup

/-- Each of the calls has lost the argument at `index` of its first ones. -/
structure ArgumentsLost (index : Nat) (calls : List (BlockId × List SocketId))
    (sh sh' : Shape) : Prop where
  call : ∀ {call}, call ∈ calls → ∀ {name arity}, sh.IsCall call.1 name arity →
    ArgumentsMoved index call.2.length arity call.1 sh sh'
  other : ∀ {b c slot}, b ∉ calls.map (·.1) → (sh'.PluggedAt c b slot ↔ sh.PluggedAt c b slot)

section Losing

variable {index : Nat} {call : BlockId × List SocketId} {calls : List (BlockId × List SocketId)}

theorem ArgumentsLost.cons {sh sh' sh'' : Shape} (hnot : call.1 ∉ calls.map (·.1))
    (hfirst : ArgumentLost index call.2.length call.1 sh sh')
    (hrest : ArgumentsLost index calls sh' sh'') : ArgumentsLost index (call :: calls) sh sh'' where
  call := by
    intro other hother name arity hcall c slot
    rcases List.mem_cons.1 hother with rfl | hother
    · exact (hrest.other hnot).trans (hfirst.call hcall)
    · have hne : other.1 ≠ call.1 := fun hsame =>
        hnot (hsame ▸ List.mem_map_of_mem hother)
      rw [hrest.call hother ((hfirst.elsewhere.isCall_iff hne).2 hcall)]
      simp only [hfirst.other hne]
  other := by
    intro b c slot hb
    rw [List.map_cons, List.mem_cons, not_or] at hb
    exact (hrest.other hb.2).trans (hfirst.other hb.1)

/-- A call that loses an argument does not disturb another one. -/
theorem Losing.ends_removeArgument (h : Losing index (call :: calls) ws) :
    Ends (removeArgument call.1 call.2 index) ws (fun _ ws' => Losing index calls ws' ∧
      ArgumentLost index call.2.length call.1 ws.main.shape ws'.main.shape) fun _ => False := by
  obtain ⟨hsettled, harguments, hindex, hnodup⟩ := h
  rw [List.forall_mem_cons] at harguments hindex
  rw [List.map_cons, List.nodup_cons] at hnodup
  refine (WorkspaceM.ends_removeArgument hsettled harguments.1 hindex.1).imp
    (fun _ ws' ⟨hws', hlost⟩ => ⟨⟨hws', fun other hother => ?_, hindex.2, hnodup.2⟩, hlost⟩)
    fun _ => id
  refine (harguments.2 other hother).elsewhere hlost.elsewhere fun hsame => hnodup.1 ?_
  exact hsame ▸ List.mem_map_of_mem hother

theorem Losing.ends_removeArguments (h : Losing index calls ws) :
    Ends (calls.mapM fun (caller, inputs) => do
        let removed ← removeArgument caller inputs index
        return removed.toList ++ [caller]) ws (fun _ ws' => ws'.Settled ∅ ∧
          ArgumentsLost index calls ws.main.shape ws'.main.shape) fun _ => False := by
  induction calls generalizing ws with
  | nil => exact ⟨h.settled, fun hcall => (List.not_mem_nil hcall).elim, fun _ => Iff.rfl⟩
  | cons call calls ih =>
      have hnot : call.1 ∉ calls.map (·.1) := (List.nodup_cons.1 h.nodup).1
      rw [List.mapM_cons, ends_bind, ends_bind]
      refine h.ends_removeArgument.imp (fun removed ws₁ ⟨hws₁, hfirst⟩ => ?_) fun _ => id
      rw [ends_pure, ends_bind]
      exact (ih hws₁).imp (fun _ ws' ⟨hws', hrest⟩ => ⟨hws', .cons hnot hfirst hrest⟩) fun _ => id

/-- Every call of a function has an argument for each parameter, or one of them is refused. -/
theorem ends_callsOf (h : ws.Settled ∅) (name : String) {n : Nat} (hindex : index < n) :
    Ends (do
        ((← get).main.callersOf name).mapM fun caller => do
          let inputs ← (List.range n).mapM fun i => ask (·.inputNamed caller (Slot.arg i))
          return (caller, inputs)) ws
      (fun calls ws' => ws' = ws ∧ Losing index calls ws ∧
        calls.map (·.1) = ws.main.callersOf name ∧ ∀ call ∈ calls, call.2.length = n)
      (· = ws) := by
  rw [ends_bind, ends_get]
  refine (ends_calls h.1.1 (fun c hc => ⟨name, Graph.mem_callersOf.1 hc⟩) n).imp
    (fun calls ws' ⟨hws', hcalled, harguments⟩ => ⟨hws', ?_, hcalled, fun call hcall =>
      (harguments call hcall).2⟩) fun _ => id
  refine ⟨h, fun call hcall => (harguments call hcall).1, fun call hcall => ?_, ?_⟩
  · rwa [(harguments call hcall).2]
  · rw [hcalled]
    exact Graph.nodup_callersOf ws.main name

/-- The calls are other blocks than the function. -/
theorem Losing.ends_setFunction (h : Losing index calls ws) {b : BlockId} {p : Ports}
    (hp : ws.main.shape.ports b = some p) {name : String} {params : List String}
    (hkind : p.kind = .function name params) (params' : List String) :
    Ends (setKind b fun _ => .function name params') ws
      (fun _ ws' => Losing index calls ws' ∧ ws'.main.shape =
        ws.main.shape.setPorts b (some { p with kind := .function name params' }))
      fun _ => False := by
  refine (WorkspaceM.ends_setFunction h.settled hp hkind params').imp
    (fun _ ws' ⟨hws', hshape, _⟩ => ⟨⟨hws', fun call hcall => ?_, h.inRange, h.nodup⟩, hshape⟩)
    fun _ => id
  have harguments := h.arguments call hcall
  refine harguments.elsewhere (b := b) ⟨fun hne => ?_, fun _ => ?_⟩ fun hsame => ?_
  · rw [hshape]
    exact if_neg hne
  · rw [hshape]
    exact Iff.rfl
  · obtain ⟨name', arity, ⟨q, hq, hkind'⟩, -⟩ := harguments.call
    rw [hsame, hp] at hq
    cases hq
    cases hkind.symm.trans hkind'

end Losing

/-- What is finished is plugged together as before. -/
theorem ends_finishEdit_shape (h : ws.Settled ∅) (touched : List BlockId) :
    Ends (finishEdit touched) ws
      (fun _ ws' => ws'.Settled ∅ ∧ ws'.main.shape = ws.main.shape) fun _ => False := by
  have hfinish : Completes (OfShape ws.main.shape ws.flyout.shape) (finishEdit touched) :=
    completes_finishEdit h.1.1 touched
  exact ((settled_of_completes h hfinish).and (hfinish ws ⟨⟨rfl, rfl⟩, h.2⟩)).imp
    (fun _ _ ⟨hws', hshape⟩ => ⟨hws', hshape.1.1⟩) fun _ => And.left

theorem ends_removeParameter_lost (h : ws.Settled ∅) (b : BlockId) (param : String) :
    Ends (removeParameter b param) ws (fun _ ws' => ws'.Settled ∅ ∧ ∃ p name params,
      ws.main.shape.ports b = some p ∧ p.kind = .function name params ∧ param ∈ params ∧
        ParameterLost name (params.idxOf param) params.length ws.main.shape ws'.main.shape)
      (· = ws) := by
  rw [removeParameter, ends_bind]
  refine (ends_functionAt b).imp (fun f ws' hended => ?_) fun _ => id
  obtain ⟨rfl, p, hp, hkind⟩ := hended
  obtain ⟨name, params⟩ := f
  dsimp only
  split
  · rfl
  rename_i hparam
  have hmem : param ∈ params := by simpa using hparam
  rw [← bind_assoc, ends_bind]
  refine (ends_callsOf h name (List.idxOf_lt_length_iff.2 hmem)).imp (fun calls ws₁ hended => ?_)
    fun _ => id
  obtain ⟨rfl, hcalls, hcalled, hlength⟩ := hended
  rw [ends_bind]
  refine (hcalls.ends_setFunction hp hkind _).imp (fun _ ws₂ ⟨hws₂, hshape⟩ => ?_)
    fun _ => False.elim
  rw [ends_bind]
  refine hws₂.ends_removeArguments.imp (fun _ ws₃ ⟨hws₃, hlost⟩ => ?_) fun _ => False.elim
  refine (ends_finishEdit_shape hws₃ _).imp
    (fun _ ws' ⟨hws', hshape'⟩ => ⟨hws', p, name, params, hp, hkind, hmem, ?_⟩) fun _ => False.elim
  -- a call of the function is another block, and one of those that lost an argument
  have hfind : ∀ {c arity}, ws₁.main.shape.IsCall c name arity →
      ws₂.main.shape.IsCall c name arity ∧ ∃ call ∈ calls, call.1 = c := by
    intro c arity hcall
    have hcaller : c ∈ calls.map (·.1) := hcalled ▸ Graph.mem_callersOf.2 ⟨arity, hcall⟩
    refine ⟨?_, List.mem_map.1 hcaller⟩
    obtain ⟨q, hq, hkind'⟩ := hcall
    have hne : c ≠ b := by
      rintro rfl
      cases hp.symm.trans hq
      cases hkind.symm.trans hkind'
    refine ⟨q, ?_, hkind'⟩
    rw [hshape]
    exact (if_neg hne).trans hq
  have hplugged : ∀ {c d slot}, ws₂.main.shape.PluggedAt c d slot ↔
      ws₁.main.shape.PluggedAt c d slot := by
    intro c d slot
    rw [hshape]
    exact Iff.rfl
  rw [hshape']
  constructor
  case length =>
    intro c arity hcall
    obtain ⟨-, call, hmem, rfl⟩ := hfind hcall
    obtain ⟨name', arity', hcall', hle⟩ := (hcalls.arguments call hmem).call
    obtain ⟨-, rfl⟩ := hcall.unique hcall'
    exact hlength call hmem ▸ hle
  case call =>
    intro c arity hcall d slot
    obtain ⟨hcall₂, call, hmem, rfl⟩ := hfind hcall
    rw [hlost.call hmem hcall₂, hlength call hmem]
    simp only [hplugged]
  case other =>
    intro c d slot hnone
    rw [hlost.other, hplugged]
    rw [hcalled, Graph.mem_callersOf]
    exact fun ⟨arity, hcall⟩ => hnone arity hcall

theorem ends_removeParameter (h : ws.Settled ∅) (b : BlockId) (param : String) :
    Ends (removeParameter b param) ws (fun _ => Settled ∅) (· = ws) :=
  (ends_removeParameter_lost h b param).imp (fun _ _ => And.left) fun _ => id

end WorkspaceM

end Plugboard
