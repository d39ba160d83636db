import Plugboard.Proofs.FilledSlots
import Plugboard.Proofs.Slots

/-!
# Calls that lose an argument

What the steps of an edit that takes an argument away from a call do to the shape: its arguments are
unplugged, it is made anew with one argument less, and what was plugged in waits to be plugged in
again, one place further up where it was behind the one taken away.
-/

namespace Plugboard.Shape

variable {sh sh' : Shape} {b caller : BlockId} {inputs : List SocketId}

/-- Blocks other than `b` have the same sockets. -/
structure Elsewhere (b : BlockId) (sh sh' : Shape) : Prop where
  ports : ∀ {c}, c ≠ b → sh'.ports c = sh.ports c
  site : ∀ {s c role}, c ≠ b → (sh'.site s = some (c, role) ↔ sh.site s = some (c, role))

/-- The block is a call of a name. -/
def IsCall (sh : Shape) (b : BlockId) (name : String) (arity : Nat) : Prop :=
  ∃ p, sh.ports b = some p ∧ p.kind = .operator name arity

theorem IsCall.unique {name name' : String} {arity arity' : Nat} (h : sh.IsCall b name arity)
    (h' : sh.IsCall b name' arity') : name = name' ∧ arity = arity' := by
  obtain ⟨p, hp, hkind⟩ := h
  obtain ⟨p', hp', hkind'⟩ := h'
  cases hp.symm.trans hp'
  exact BlockKind.operator.inj (hkind.symm.trans hkind')

theorem Elsewhere.isCall_iff {c : BlockId} {name : String} {arity : Nat}
    (h : Elsewhere b sh sh') (hne : c ≠ b) : sh'.IsCall c name arity ↔ sh.IsCall c name arity := by
  simp only [IsCall, h.ports hne]

/-- The sockets are the first inputs of a call. -/
structure Arguments (sh : Shape) (caller : BlockId) (inputs : List SocketId) : Prop where
  call : ∃ name arity, sh.IsCall caller name arity ∧ inputs.length ≤ arity
  seats : sh.Seats caller inputs ((List.range inputs.length).map Slot.arg)

namespace Arguments

variable (h : sh.Arguments caller inputs)

include h

theorem exists_slot {s : SocketId} (hs : s ∈ inputs) :
    ∃ slot, sh.site s = some (caller, .input slot) :=
  let ⟨slot, _, hsite⟩ := h.seats.exists_slot hs
  ⟨slot, hsite⟩

theorem site_getElem {i : Nat} (hi : i < inputs.length) :
    sh.site inputs[i] = some (caller, .input (Slot.arg i)) := by
  have hget : (inputs.map sh.site)[i]? = _ := congrArg (·[i]?) h.seats
  simpa [hi] using hget

theorem nodup : inputs.Nodup := by
  have hnodup : (((List.range inputs.length).map Slot.arg).map fun slot =>
      some (caller, Role.input slot)).Nodup :=
    (List.nodup_range.map Slot.arg_injective).map fun _ _ heq =>
      Role.input.inj (Prod.mk.inj (Option.some.inj heq)).2
  exact List.Nodup.of_map sh.site (h.seats ▸ hnodup)

theorem mem_iff (hsh : sh.Wired) {s : SocketId} :
    s ∈ inputs ↔ ∃ i < inputs.length, sh.site s = some (caller, .input (Slot.arg i)) := by
  constructor
  · intro hs
    obtain ⟨i, hi, rfl⟩ := List.getElem_of_mem hs
    exact ⟨i, hi, h.site_getElem hi⟩
  · rintro ⟨i, hi, hs⟩
    obtain ⟨p, hp⟩ := hsh.owner hs
    rw [(hsh.lists hp).input_unique hs (h.site_getElem hi)]
    exact List.getElem_mem hi

theorem elsewhere (hother : Elsewhere b sh sh') (hne : caller ≠ b) :
    sh'.Arguments caller inputs where
  call :=
    let ⟨name, arity, hcall, hlength⟩ := h.call
    ⟨name, arity, (hother.isCall_iff hne).2 hcall, hlength⟩
  seats := by
    refine Eq.trans (List.map_congr_left fun s hs => ?_) h.seats
    obtain ⟨slot, hsite⟩ := h.exists_slot hs
    rw [hsite]
    exact (hother.site hne).2 hsite

end Arguments

/-- Some inputs are unplugged, and this is what they were plugged to. -/
structure Unplugged (sh sh' : Shape) (inputs : List SocketId) (plugged : List (Option SocketId)) :
    Prop where
  ports : sh'.ports = sh.ports
  site : sh'.site = sh.site
  peer : ∀ {s d}, sh'.peer s = some d ↔ sh.peer s = some d ∧ s ∉ inputs ∧ d ∉ inputs
  was : plugged = inputs.map sh.peer

namespace Unplugged

variable {plugged : List (Option SocketId)}

/-- One more input is unplugged, before the others are. -/
theorem cons (hsh : sh.Linked) {s : SocketId}
    (hinputs : ∀ x ∈ s :: inputs, ∃ slot, sh.site x = some (caller, .input slot))
    (hs : s ∉ inputs) (h : Unplugged (sh.cut s) sh' inputs plugged) :
    Unplugged sh sh' (s :: inputs) (sh.peer s :: plugged) where
  ports := h.ports
  site := h.site
  peer := by
    intro x y
    rw [h.peer, peer_cut hsh, List.mem_cons, List.mem_cons]
    tauto
  was := by
    rw [h.was, List.map_cons]
    refine congrArg _ (List.map_congr_left fun x hx => if_neg ?_)
    rintro (rfl | hpeer)
    · exact hs hx
    -- no input is plugged to an input
    · obtain ⟨slot, hslot⟩ := hinputs s List.mem_cons_self
      obtain ⟨slot', hslot'⟩ := hinputs x (List.mem_cons_of_mem s hx)
      rcases hsh.joins hpeer with ⟨_, _, _, hout, -⟩ | ⟨_, _, _, -, hout⟩
      · cases hslot.symm.trans hout
      · cases hslot'.symm.trans hout

theorem free (h : Unplugged sh sh' inputs plugged) {s : SocketId} (hs : s ∈ inputs) :
    sh'.peer s = none :=
  Option.eq_none_iff_forall_ne_some.2 fun _ hd => (h.peer.1 hd).2.1 hs

/-- What an input was plugged to is free. -/
theorem exists_input (hsh : sh.Linked) (h : Unplugged sh sh' inputs plugged) {o : SocketId}
    (ho : some o ∈ plugged) : sh'.peer o = none ∧ ∃ s ∈ inputs, sh.peer s = some o := by
  rw [h.was] at ho
  obtain ⟨s, hs, hpeer⟩ := List.mem_map.1 ho
  refine ⟨Option.eq_none_iff_forall_ne_some.2 fun d hd => ?_, s, hs, hpeer⟩
  obtain ⟨hold, -, hd⟩ := h.peer.1 hd
  cases hold.symm.trans (hsh.symm hpeer)
  exact hd hs

theorem nodup (hsh : sh.Linked) (h : Unplugged sh sh' inputs plugged) (hinputs : inputs.Nodup) :
    (plugged.filterMap id).Nodup := by
  rw [h.was, List.filterMap_map]
  exact hinputs.filterMap fun _ _ _ hs hs' => by
    exact Option.some.inj ((hsh.symm (Option.mem_def.1 hs)).symm.trans
      (hsh.symm (Option.mem_def.1 hs')))

/-- The arguments of the call are not filled any more, and all else is. -/
theorem pluggedAt_iff (hsh : sh.Wired) (harguments : sh.Arguments caller inputs)
    (h : Unplugged sh sh' inputs plugged) {c d : BlockId} {slot : String} :
    sh'.PluggedAt c d slot ↔ sh.PluggedAt c d slot ∧
      ¬ (d = caller ∧ ∃ i < inputs.length, slot = Slot.arg i) := by
  constructor
  · rintro ⟨x, y, hx, hpeer, hy⟩
    rw [h.site] at hx hy
    obtain ⟨hpeer, -, hout⟩ := h.peer.1 hpeer
    refine ⟨⟨x, y, hx, hpeer, hy⟩, ?_⟩
    rintro ⟨rfl, i, hi, rfl⟩
    exact hout ((harguments.mem_iff hsh).2 ⟨i, hi, hy⟩)
  · rintro ⟨⟨x, y, hx, hpeer, hy⟩, hother⟩
    refine ⟨x, y, h.site ▸ hx, h.peer.2 ⟨hpeer, fun hmem => ?_, fun hmem => ?_⟩, h.site ▸ hy⟩
    · obtain ⟨slot', hsite⟩ := harguments.exists_slot hmem
      cases hx.symm.trans hsite
    · obtain ⟨i, hi, hsite⟩ := (harguments.mem_iff hsh).1 hmem
      cases hy.symm.trans hsite
      exact hother ⟨rfl, i, hi, rfl⟩

end Unplugged

/-- What is still to be plugged in again: unplugged outputs that were plugged into the call, and
for each an unplugged argument. -/
structure Pending (sh₀ sh : Shape) (caller : BlockId) (rest : List (Option SocketId × Nat)) :
    Prop where
  seat : ∀ o i, (o, i) ∈ rest → ∃ s, sh.site s = some (caller, .input (Slot.arg i))
  output : ∀ o i, (some o, i) ∈ rest → sh.peer o = none ∧
    ∃ c, sh₀.Plugged c caller ∧ sh.site o = some (c, .output)
  input : ∀ o i, (o, i) ∈ rest → ∀ s, sh.site s = some (caller, .input (Slot.arg i)) →
    sh.peer s = none
  outputs : (rest.filterMap (·.1)).Nodup
  indices : (rest.map (·.2)).Nodup

namespace Pending

variable {sh₀ : Shape} {rest : List (Option SocketId × Nat)}

theorem tail {entry : Option SocketId × Nat} (h : Pending sh₀ sh caller (entry :: rest)) :
    Pending sh₀ sh caller rest where
  seat o i hmem := h.seat o i (List.mem_cons_of_mem entry hmem)
  output o i hmem := h.output o i (List.mem_cons_of_mem entry hmem)
  input o i hmem := h.input o i (List.mem_cons_of_mem entry hmem)
  outputs := h.outputs.sublist ((List.sublist_cons_self entry rest).filterMap _)
  indices := (List.nodup_cons.1 h.indices).2

theorem join {o s : SocketId} {i : Nat} (h : Pending sh₀ sh caller ((some o, i) :: rest))
    (hs : sh.site s = some (caller, .input (Slot.arg i))) :
    Pending sh₀ (sh.join o s) caller rest := by
  obtain ⟨-, c, -, ho⟩ := h.output o i List.mem_cons_self
  refine ⟨h.tail.seat, fun o' j hmem => ?_, fun o' j hmem s' hs' => ?_, h.tail.outputs,
    h.tail.indices⟩
  · obtain ⟨hfree, c', hplug, hsite⟩ := h.tail.output o' j hmem
    refine ⟨?_, c', hplug, hsite⟩
    have hos : o' ≠ s := by
      rintro rfl
      cases hsite.symm.trans hs
    have hoo : o' ≠ o := by
      rintro rfl
      exact (List.nodup_cons.1 h.outputs).1 (List.mem_filterMap.2 ⟨_, hmem, rfl⟩)
    simpa [Shape.join, hos, hoo] using hfree
  · have hfree := h.tail.input o' j hmem s' hs'
    have hso : s' ≠ o := by
      rintro rfl
      cases hs'.symm.trans ho
    have hss : s' ≠ s := by
      rintro rfl
      have hij := hs'.symm.trans hs
      simp only [Option.some.injEq, Prod.mk.injEq, Role.input.injEq, true_and] at hij
      have hmemIndices := List.mem_map_of_mem (f := (·.2)) hmem
      rw [Slot.arg_injective hij] at hmemIndices
      exact (List.nodup_cons.1 h.indices).1 hmemIndices
    simpa [Shape.join, hso, hss] using hfree

end Pending

/-- What was waiting is plugged in again, and all else is plugged in as before. -/
structure Replugged (caller : BlockId) (rest : List (Option SocketId × Nat)) (sh sh' : Shape) :
    Prop where
  ports : sh'.ports = sh.ports
  site : sh'.site = sh.site
  pluggedAt : ∀ {c b slot}, sh'.PluggedAt c b slot ↔ sh.PluggedAt c b slot ∨
    b = caller ∧ ∃ o i, (some o, i) ∈ rest ∧ slot = Slot.arg i ∧ sh.site o = some (c, .output)

namespace Replugged

variable {rest : List (Option SocketId × Nat)} {i : Nat}

theorem nil (sh : Shape) : Replugged caller [] sh sh :=
  ⟨rfl, rfl, by simp⟩

theorem cons_none (h : Replugged caller rest sh sh') :
    Replugged caller ((none, i) :: rest) sh sh' :=
  ⟨h.ports, h.site, by simp [h.pluggedAt]⟩

theorem cons_some {o s : SocketId} {d : BlockId} (ho : sh.site o = some (d, .output))
    (hs : sh.site s = some (caller, .input (Slot.arg i))) (hfree : sh.peer o = none)
    (h : Replugged caller rest (sh.join o s) sh') :
    Replugged caller ((some o, i) :: rest) sh sh' where
  ports := h.ports
  site := h.site
  pluggedAt := by
    intro c b slot
    rw [h.pluggedAt, pluggedAt_join ho hs hfree]
    constructor
    · rintro ((hplug | ⟨rfl, rfl, rfl⟩) | ⟨rfl, o', i', hmem, rfl, hsite⟩)
      · exact .inl hplug
      · exact .inr ⟨rfl, o, i, List.mem_cons_self, rfl, ho⟩
      · exact .inr ⟨rfl, o', i', List.mem_cons_of_mem _ hmem, rfl, hsite⟩
    · rintro (hplug | ⟨rfl, o', i', hmem, rfl, hsite⟩)
      · exact .inl (.inl hplug)
      · rcases List.mem_cons.1 hmem with heq | hmem
        · cases heq
          cases ho.symm.trans hsite
          exact .inl (.inr ⟨rfl, rfl, rfl⟩)
        · exact .inr ⟨rfl, o', i', hmem, rfl, hsite⟩

end Replugged

/-- What is plugged in again one place further up, once the call is made anew. -/
theorem pending_of_refit {sh₀ sh₁ sh₂ sh₃ : Shape} {p : Ports} {inputs' : List SocketId}
    {slots : List String} {plugged : List (Option SocketId)} (hsh₀ : sh₀.Wired)
    (hsh₂ : sh₂.Wired) (harguments : sh₀.Arguments caller inputs)
    (hunplugged : Unplugged sh₀ sh₁ inputs plugged) (hsite : sh₂.site = sh₁.site)
    (hpeer : sh₂.peer = sh₁.peer) (hrefit : Refit caller p inputs' slots sh₂ sh₃) {index : Nat}
    (hslots : ∀ i < (plugged.eraseIdx index).length, Slot.arg i ∈ slots) :
    Pending sh₀ sh₃ caller (plugged.eraseIdx index).zipIdx := by
  have hfree : ∀ {s}, sh₁.peer s = none → sh₃.peer s = none := fun {s} hs => by
    refine Option.eq_none_iff_forall_ne_some.2 fun d hd => ?_
    rw [hrefit.peer, hpeer, hs] at hd
    cases hd.1
  constructor
  · intro o i hmem
    exact hrefit.seats.exists_socket (hslots i (by simpa using List.snd_lt_of_mem_zipIdx hmem))
  · intro o i hmem
    have ho : some o ∈ plugged :=
      List.mem_of_mem_eraseIdx (List.fst_mem_of_mem_zipIdx hmem)
    obtain ⟨hnone, s, hs, hso⟩ := hunplugged.exists_input hsh₀.toLinked ho
    obtain ⟨slot, hsite₀⟩ := harguments.exists_slot hs
    rcases hsh₀.joins hso with ⟨_, _, _, hs', -⟩ | ⟨_, c, _, hs', hc⟩
    · cases hsite₀.symm.trans hs'
    · refine ⟨hfree hnone, c, ⟨o, s, slot, hc, hsh₀.symm hso, hsite₀⟩, ?_⟩
      rw [hrefit.elsewhere (.inr rfl), hsite, hunplugged.site]
      exact hc
  -- the sockets of the call are old ones that have been unplugged, or new ones
  · intro o i hmem s hs
    have hi : i < inputs.length := by
      have hlt := List.snd_lt_of_mem_zipIdx hmem
      have hle := List.length_eraseIdx_le plugged index
      rw [hunplugged.was, List.length_map] at hle
      rw [hunplugged.was] at hlt
      exact hlt.trans_le hle
    rcases hrefit.old_or_new hs with hold | hnew
    · rw [hsite, hunplugged.site] at hold
      exact hfree (hunplugged.free ((harguments.mem_iff hsh₀).2 ⟨i, hi, hold⟩))
    · refine Option.eq_none_iff_forall_ne_some.2 fun d hd => ?_
      obtain ⟨r, hr⟩ := hsh₂.site_of_peer (hsh₂.symm (hrefit.peer.1 hd).1)
      exact absurd (hsh₂.socket_lt hr) (Nat.not_lt.2 hnew.1)
  · have hmap : (plugged.eraseIdx index).zipIdx.filterMap (·.1) =
        (plugged.eraseIdx index).filterMap id := by
      conv_rhs => rw [← List.zipIdx_map_fst 0 (plugged.eraseIdx index)]
      rw [List.filterMap_map]
      rfl
    rw [hmap]
    exact (hunplugged.nodup hsh₀.toLinked harguments.nodup).sublist
      ((List.eraseIdx_sublist plugged index).filterMap id)
  · rw [List.zipIdx_map_snd]
    exact List.nodup_range'

/-- What waits is what was plugged in, but for one argument. -/
theorem exists_waiting_iff (hsh : sh.Wired) (harguments : sh.Arguments caller inputs)
    (index j : Nat) (c : BlockId) :
    (∃ o, (some o, j) ∈ ((inputs.map sh.peer).eraseIdx index).zipIdx ∧
        sh.site o = some (c, .output)) ↔
      ∃ i < inputs.length, i = (if j < index then j else j + 1) ∧
        sh.PluggedAt c caller (Slot.arg i) := by
  simp only [List.mem_zipIdx_iff_getElem?, List.getElem?_eraseIdx]
  rw [← apply_ite fun i => (inputs.map sh.peer)[i]?]
  generalize (if j < index then j else j + 1) = k
  rw [List.getElem?_map]
  constructor
  · rintro ⟨o, hget, ho⟩
    obtain ⟨s, hs, hpeer⟩ := Option.map_eq_some_iff.1 hget
    obtain ⟨hk, rfl⟩ := List.getElem?_eq_some_iff.1 hs
    exact ⟨k, hk, rfl, (hsh.pluggedAt_iff (harguments.site_getElem hk)).2 ⟨o, hpeer, ho⟩⟩
  · rintro ⟨i, hi, rfl, hplug⟩
    obtain ⟨o, hpeer, ho⟩ := (hsh.pluggedAt_iff (harguments.site_getElem hi)).1 hplug
    refine ⟨o, ?_, ho⟩
    rw [List.getElem?_eq_getElem hi, Option.map_some, hpeer]

/-- Where the argument at `i` goes when a call with `arity` arguments loses the one at `index` of
its first `count`. The call has one argument less then, and what is plugged in behind these `count`
stays where it is: the last of it has no place any more. -/
def argumentAfter (index count arity i : Nat) : Option Nat :=
  if i < index then some i
  else if i = index then none
  else if i < count then some (i - 1)
  else if i + 1 < arity then some i
  else none

theorem argumentAfter_eq_some {index count arity i j : Nat} (hindex : index < count) :
    argumentAfter index count arity i = some j ↔
      (i < count ∧ i = if j < index then j else j + 1) ∨ count ≤ i ∧ i + 1 < arity ∧ i = j := by
  rw [argumentAfter]
  split_ifs <;> simp <;> omega

/-- What is plugged into a call is what was plugged into it before one argument was taken away. -/
def ArgumentsMoved (index count arity : Nat) (b : BlockId) (sh sh' : Shape) : Prop :=
  ∀ {c slot}, sh'.PluggedAt c b slot ↔ ∃ i j, argumentAfter index count arity i = some j ∧
    slot = Slot.arg j ∧ sh.PluggedAt c b (Slot.arg i)

/-- A call has lost the argument at `index` of its first `count`. -/
structure ArgumentLost (index count : Nat) (caller : BlockId) (sh sh' : Shape) : Prop where
  elsewhere : Elsewhere caller sh sh'
  call : ∀ {name arity}, sh.IsCall caller name arity →
    ArgumentsMoved index count arity caller sh sh'
  other : ∀ {b c slot}, b ≠ caller → (sh'.PluggedAt c b slot ↔ sh.PluggedAt c b slot)

/-- Every call of a name has lost the argument at `index` of its first `count`. -/
structure ParameterLost (name : String) (index count : Nat) (sh sh' : Shape) : Prop where
  length : ∀ {b arity}, sh.IsCall b name arity → count ≤ arity
  call : ∀ {b arity}, sh.IsCall b name arity → ArgumentsMoved index count arity b sh sh'
  other : ∀ {b c slot}, (∀ arity, ¬ sh.IsCall b name arity) →
    (sh'.PluggedAt c b slot ↔ sh.PluggedAt c b slot)

end Plugboard.Shape
