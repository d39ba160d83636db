import Plugboard.Proofs.Coherence

/-!
# Removing a parameter moves arguments up

Every call of a function loses the argument for a parameter that is removed, and the arguments for
later parameters move up. A call may have more arguments than the function has parameters, when it
was made for another function of that name: these stay where they are, and the last of them is lost.
-/

namespace Plugboard

open Shape

namespace Shape

variable {sh sh' : Shape} {b c : BlockId} {name : String} {index count arity i j : Nat}

/-- In a call that has an argument for each parameter and no more, all later ones move up. -/
theorem argumentAfter_self (hi : i < count) :
    argumentAfter index count count i =
      if i < index then some i else if i = index then none else some (i - 1) := by
  rw [argumentAfter, if_pos hi]

/-- A call that has more arguments than that loses the last of them. -/
theorem argumentAfter_last (hindex : index < count) (hmore : count < arity) :
    argumentAfter index count arity (arity - 1) = none := by
  refine Option.eq_none_iff_forall_ne_some.2 fun j hj => ?_
  rw [argumentAfter_eq_some hindex] at hj
  omega

namespace ParameterLost

variable (h : ParameterLost name index count sh sh') (hcall : sh.IsCall b name arity)
  (hplug : sh.PluggedAt c b (Slot.arg i))

include h hcall hplug

theorem pluggedAt (hafter : argumentAfter index count arity i = some j) :
    sh'.PluggedAt c b (Slot.arg j) :=
  (h.call hcall).2 ⟨i, j, hafter, rfl, hplug⟩

/-- What has no place in the call any more is plugged in nowhere. -/
theorem not_pluggedAt (hsh : sh.Wired) (hafter : argumentAfter index count arity i = none)
    (d : BlockId) (slot : String) : ¬ sh'.PluggedAt c d slot := by
  intro hplug'
  by_cases hd : ∃ arity', sh.IsCall d name arity'
  · obtain ⟨arity', hcall'⟩ := hd
    obtain ⟨i', j, hsome, -, hold⟩ := (h.call hcall').1 hplug'
    obtain ⟨rfl, hslot⟩ := hsh.pluggedAt_unique hold hplug
    cases Slot.arg_injective hslot
    obtain ⟨-, rfl⟩ := hcall.unique hcall'
    cases hafter.symm.trans hsome
  · obtain ⟨rfl, -⟩ := hsh.pluggedAt_unique
      ((h.other fun arity' hcall' => hd ⟨arity', hcall'⟩).1 hplug') hplug
    exact hd ⟨arity, hcall⟩

end ParameterLost

end Shape

namespace Workspace

variable {ws : Workspace} {b : BlockId} {param : String}

/-- A parameter that is removed takes an argument from every call, and from nothing else. -/
theorem Reachable.parameterLost (h : ws.Reachable Command.AddsUnrepeated)
    (hok : (ws.perform (.removeParameter b param)).1.isOk) :
    ∃ p name params, ws.main.shape.ports b = some p ∧ p.kind = .function name params ∧
      param ∈ params ∧ ParameterLost name (params.idxOf param) params.length ws.main.shape
        (ws.after (.removeParameter b param)).main.shape := by
  have hends : Ends (WorkspaceM.perform (.removeParameter b param)) ws (fun _ ws' =>
      ∃ p name params, ws.main.shape.ports b = some p ∧ p.kind = .function name params ∧
        param ∈ params ∧ ParameterLost name (params.idxOf param) params.length ws.main.shape
          ws'.main.shape) (· = ws) :=
    ends_map.2 ((WorkspaceM.ends_removeParameter_lost h.settled b param).imp
      (fun _ _ => And.right) fun _ => id)
  obtain ⟨_, hlost⟩ := hends.of_isOk hok
  exact hlost

/-- What is plugged into a call goes where `argumentAfter` says, or is unplugged. -/
theorem Reachable.argument_after_removeParameter (h : ws.Reachable Command.AddsUnrepeated)
    (hok : (ws.perform (.removeParameter b param)).1.isOk) {p : Ports} {name : String}
    {params : List String} (hp : ws.main.shape.ports b = some p)
    (hkind : p.kind = .function name params) {caller c : BlockId} {arity i : Nat}
    (hcall : ws.main.shape.IsCall caller name arity)
    (hplug : ws.main.shape.PluggedAt c caller (Slot.arg i)) :
    let place := argumentAfter (params.idxOf param) params.length arity i
    let after := (ws.after (.removeParameter b param)).main.shape
    (∀ j, place = some j → after.PluggedAt c caller (Slot.arg j)) ∧
      (place = none → ∀ d slot, ¬ after.PluggedAt c d slot) := by
  obtain ⟨p', name', params', hp', hkind', -, hlost⟩ := h.parameterLost hok
  cases hp.symm.trans hp'
  cases hkind.symm.trans hkind'
  exact ⟨fun j => hlost.pluggedAt hcall hplug,
    hlost.not_pluggedAt hcall hplug h.settled.1.1.toWired⟩

set_option maxRecDepth 8000 in
/-- The number in the third argument of a call is lost with the first parameter of two. -/
example :
    let ws := [.add .main (.function "f" ["x", "y"]), .add .main (.operator "f" 3),
      .add .main (.literal "1" .number), .plug ⟨2⟩ ⟨1⟩ "ARG2"].foldl after (ofSettings default)
    (ws.main.children ⟨1⟩).toOption = some [⟨2⟩] ∧
      ((ws.after (.removeParameter ⟨0⟩ "x")).main.children ⟨1⟩).toOption = some [] := by
  cbv

end Workspace

end Plugboard
