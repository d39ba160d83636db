import Plugboard.Proofs.RootOrder

/-!
# What fails leaves no trace

A tree whose inference fails gets a warning and keeps its types. Whether it fails does not depend
on what has been inferred elsewhere, so a root that fails keeps the types of its component, in
whatever company it is inferred.
-/

namespace Plugboard

open Shape Workspace

namespace Workspace

/-- What inference of the tree below `root` would come to now. -/
def outcomeOf (ws : Workspace) (env : Env) (root : BlockId) (expected : Option Ty) :
    Except TypeError Subst :=
  match ws.main.lower root with
  | .error e => .error (.structural e)
  | .ok l =>
      let inference := match expected with
        | some t => l.inferAs env root t .empty
        | none => l.inferSection env
      (inference.run (InferM.ofPool ws.pool)).1

/-- The trees that are inferred for a root, each with the type that is expected of it. -/
def treesOf (ws : Workspace) (root : BlockId) : List (BlockId × Option Ty) :=
  match ws.main.shape.ports root with
  | none => []
  | some p =>
      match p.kind with
      | .function _ _ | .data _ => []
      | .statement _ => p.inputs.filterMap fun input =>
          (ws.main.shape.guest input).map fun child => (child, ws.main.tyAt input)
      | _ => [(root, none)]

/-- Inference of the root would fail now: none of its trees has a type. -/
def Fails (ws : Workspace) (env : Env) (root : BlockId) : Prop :=
  ∀ tree ∈ ws.treesOf root, ∃ e, ws.outcomeOf env tree.1 tree.2 = .error e

/-- The types that are plugged together with `root` are those of `old`. -/
structure Unmoved (sh flyout : Shape) (root : BlockId) (old ws : Workspace) : Prop where
  sound : ws.Sound sh flyout old.pool
  keptAt : ∀ {b place}, sh.Connected root b → sh.Hosts b place →
    ws.main.keptAt place = old.main.keptAt place

theorem keptAt_warn (ws : Workspace) (root : BlockId) (e : TypeError) (place : Place) :
    (ws.warn root e).main.keptAt place = ws.main.keptAt place :=
  Graph.keptAt_modifyBlock (fun _ => by rfl) _ place

variable {sh flyout : Shape} {pool : VarPool} {env : Env} {root : BlockId} {ws ws' : Workspace}

theorem Unmoved.refl (h : ws.Sound sh flyout pool) : Unmoved sh flyout root ws ws :=
  ⟨⟨h.1, h.2.self⟩, fun _ _ => rfl⟩

theorem outcomeOf_of_ok {l : Lowered} (hlower : ws.main.lower root = .ok l)
    (expected : Option Ty) : ws.outcomeOf env root expected =
      ((l.inference env root expected).run (InferM.ofPool ws.pool)).1 := by
  rw [outcomeOf, hlower]
  cases expected <;> rfl

/-- What fails will fail later as well. -/
theorem outcomeOf_error (henv : env.Closed) (hws : ws.Sound sh flyout pool)
    (hws' : ws'.Sound sh flyout ws.pool) {expected : Option Ty}
    (hexpected : ∀ t ∈ expected, ∃ s, ws.main.tyAt s = some t) {e : TypeError}
    (h : ws.outcomeOf env root expected = .error e) :
    ∃ e', ws'.outcomeOf env root expected = .error e' := by
  have hshape : ws.main.SameShape ws'.main := .of_shape_eq (hws'.1.1.1.trans hws.1.1.1.symm)
  obtain ⟨p, hid, hknown, hp⟩ := hws.2.exists_pairing_later hws'.2.extended
  have hpaired : Option.Rel p.Types expected expected := by
    refine Pairing.types?_of_eq_map (hid ▸ ?_) fun t ht v hv => ?_
    · cases expected with
      | none => rfl
      | some t => exact congrArg some (Ty.bind_var t).symm
    · obtain ⟨s, hs⟩ := hexpected t ht
      exact hknown v ⟨.main, t, hv, .inl ⟨s, hs⟩⟩
  cases hlower : ws.main.lower root with
  | error e =>
      rw [outcomeOf, hshape.lower_eq, hlower]
      exact ⟨_, rfl⟩
  | ok l =>
      rw [outcomeOf_of_ok hlower] at h
      rw [outcomeOf_of_ok ((congrFun hshape.lower_eq root).trans hlower)]
      have hlits := Graph.litsGround_lower hws.2.ground hlower
      obtain ⟨q, -, hout, -⟩ := Pairing.parallel_inference hlits (.of_closed henv) root hpaired
        (InferM.ofPool ws.pool) (InferM.ofPool ws'.pool) ⟨hp.left, hp.right, .nil⟩
      exact (hout.exists_error h).imp fun _ => And.left

end Workspace

namespace WorkspaceM

variable {sh flyout : Shape} {pool : VarPool} {env : Env} {root r : BlockId} {ws : Workspace}

/-- A tree that fails gets a warning, and names may have been handed out. -/
theorem ends_inferTree_of_error {expected : Option Ty} {e : TypeError}
    (h : ws.outcomeOf env root expected = .error e) :
    Ends (inferTree env root expected) ws
      (fun _ ws' => ∃ pool, ws' = Workspace.warn { ws with pool } root e) fun _ => False := by
  cases hlower : ws.main.lower root with
  | error e' =>
      rw [outcomeOf, hlower] at h
      cases h
      exact (ends_inferTree_unlowered hlower).2 ⟨ws.pool, rfl⟩
  | ok l =>
      rw [outcomeOf_of_ok hlower] at h
      rw [ends_inferTree_iff hlower]
      generalize (l.inference env root expected).run (InferM.ofPool ws.pool) = out at h ⊢
      obtain ⟨_, st⟩ := out
      cases h
      exact ⟨st.pool, rfl⟩

/-- Other roots leave the component alone. -/
theorem completes_unmoved_of_ne (hsh : sh.Regular ∅) (henv : env.Closed) (hroot : sh.Top root)
    (hr : sh.Top r) (hne : r ≠ root) : Completes (Unmoved sh flyout root ws) (inferRoot env r) := by
  intro ws' hws'
  obtain ⟨n, ws₁, hrun, hws₁⟩ := exists_inferRoot hsh henv hr.live hws'.sound
  rw [Ends, hrun]
  refine ⟨hws₁, fun hb hplace => ?_⟩
  have hnot : ¬ sh.Connected r _ := fun h =>
    hne (hr.eq_of_connected hsh.toWired hroot (h.trans hb.symm))
  exact ((twins_of_inferRoot hsh hr.live hws'.sound.1.1.1 hrun).outside hnot hplace).trans
    (hws'.keptAt hb hplace)

section

variable (hsh : sh.Regular ∅) (henv : env.Closed) (hws : ws.Sound sh flyout pool)

include hsh henv hws

theorem completes_unmoved_inferTree {expected : Option Ty} (hroot : sh.Live r)
    (hexpected : ∀ t ∈ expected, ∃ s slot, sh.site s = some (root, .input slot) ∧
      sh.guest s = some r ∧ ws.main.tyAt s = some t)
    (hfails : ∃ e, ws.outcomeOf env r expected = .error e) :
    Completes (Unmoved sh flyout root ws) (inferTree env r expected) := by
  intro ws' hws'
  obtain ⟨e, he⟩ := hfails
  obtain ⟨e', he'⟩ := outcomeOf_error henv hws hws'.sound
    (fun t ht => (hexpected t ht).imp fun _ ⟨_, h⟩ => h.2.2) he
  -- a failure keeps all types, and that the names are still accounted for is known of any outcome
  have hsound : Ends (inferTree env r expected) ws' (fun _ => Sound sh flyout ws.pool)
      fun _ => False :=
    (steady_sound hsh).ends_inferTree hsh hws'.sound (fun _ => henv) hroot fun t ht => by
      obtain ⟨s, slot, hsite, hguest, hty⟩ := hexpected t ht
      refine ⟨s, hguest, ?_⟩
      have hkept : ws'.main.keptAt (.socket s) = ws.main.keptAt (.socket s) :=
        hws'.keptAt .refl (show sh.Hosts root (.socket s) from ⟨_, hsite⟩)
      exact hkept.trans hty
  refine (hsound.and (ends_inferTree_of_error he')).imp (fun _ ws₁ h => ?_) fun _ => And.left
  obtain ⟨hsound, pool, rfl⟩ := h
  exact ⟨hsound, fun hb hplace => (keptAt_warn _ _ _ _).trans (hws'.keptAt hb hplace)⟩

theorem completes_unmoved_inferSlot {input : SocketId} {slot : String}
    (hsite : sh.site input = some (root, .input slot))
    (hfails : ∀ child, sh.guest input = some child →
      ∃ e, ws.outcomeOf env child (ws.main.tyAt input) = .error e) :
    Completes (Unmoved sh flyout root ws) (inferSlot env input) := by
  intro ws' hws'
  have hshape := hws'.sound.1.1.1
  have hhosts : sh.Hosts root (.socket input) := ⟨_, hsite⟩
  have hty : ws'.main.socketTy input = .ok (ws.main.tyAt input) :=
    (Graph.placeTy_eq (show ws'.main.shape.Hosts root (.socket input) from hshape ▸ hhosts)).trans
      (congrArg Except.ok (hws'.keptAt .refl hhosts))
  rw [inferSlot, ends_bind, ends_ask, Graph.pluggedBlock_eq (hshape.symm ▸ hsh.toWired)
    (hshape.symm ▸ hsite), hshape]
  cases hguest : sh.guest input with
  | none => exact hws'
  | some child =>
      dsimp only
      rw [ends_bind, ends_ask, hty]
      dsimp only
      rw [ends_bind]
      exact completes_unmoved_inferTree hsh henv hws (hsh.toWired.live_of_guest hguest)
        (fun t ht => ⟨input, slot, hsite, hguest, ht⟩) (hfails child hguest) ws' hws'

theorem completes_unmoved_of_fails (hroot : sh.Live root) (hfails : ws.Fails env root) :
    Completes (Unmoved sh flyout root ws) (inferRoot env root) := by
  intro ws' hws'
  obtain ⟨p, hp⟩ := id hroot
  have hlists := hsh.lists hp
  rw [Fails, treesOf, hws.1.1.1, hp] at hfails
  obtain ⟨block, hblock, rfl⟩ := Graph.shape_ports_eq_some.1 (hws'.sound.1.1.1.symm ▸ hp)
  rw [inferRoot, ends_bind, ends_ask, Graph.block_eq_ok.2 hblock]
  dsimp only at hfails ⊢
  split
  · exact hws'
  · exact hws'
  · rename_i hkind
    rw [hkind] at hfails
    refine completes_total (fun input hinput => ?_) ws' hws'
    obtain ⟨slot, hsite⟩ := hlists.input hinput
    refine completes_unmoved_inferSlot hsh henv hws hsite fun child hchild => ?_
    exact hfails (child, ws.main.tyAt input)
      (List.mem_filterMap.2 ⟨input, hinput, by rw [hchild]; rfl⟩)
  · rw [ends_bind]
    refine completes_unmoved_inferTree hsh henv hws hroot (by simp) ?_ ws' hws'
    simp only at hfails
    exact hfails (root, none) List.mem_cons_self

/-- A root keeps the types of its component, unless its own inference succeeds. -/
theorem completes_unmoved_total {roots : List BlockId} (hroot : sh.Top root)
    (hroots : ∀ r ∈ roots, sh.Top r) (hfails : root ∈ roots → ws.Fails env root) :
    Completes (Unmoved sh flyout root ws) (total (inferRoot env) roots) := by
  refine completes_total fun r hr => ?_
  by_cases heq : r = root
  · subst heq
    exact completes_unmoved_of_fails hsh henv hws hroot.live (hfails hr)
  · exact completes_unmoved_of_ne hsh henv hroot (hroots r hr) heq

theorem unmoved_of_total {roots : List BlockId} (hroot : sh.Top root)
    (hroots : ∀ r ∈ roots, sh.Top r) (hfails : root ∈ roots → ws.Fails env root) {n : Nat}
    {ws₁ : Workspace} (hrun : (total (inferRoot env) roots).run ws = (.ok n, ws₁)) :
    Unmoved sh flyout root ws ws₁ :=
  (completes_unmoved_total hsh henv hws hroot hroots hfails ws (.refl hws)).of_run_eq hrun

end

theorem top_of_function (hsh : sh.Regular ∅) {b : BlockId} {p : Ports} (hp : sh.ports b = some p)
    (hfun : p.kind.function?.isSome) : sh.Top b ∧ ∃ name, sh.Defines b name := by
  obtain ⟨⟨name, params⟩, hfun⟩ := Option.isSome_iff_exists.1 hfun
  have hdefines : sh.Defines b name := by
    refine ⟨p, params, hp, ?_⟩
    cases hkind : p.kind <;> rw [hkind] at hfun <;> cases hfun
    rfl
  exact ⟨⟨⟨p, hp⟩, fun _ => hsh.not_plugged hdefines⟩, name, hdefines⟩

/-- Functions are inferred first, which concerns no root that is not a function. -/
theorem exists_globalEnv (hsh : sh.Regular ∅) (hws : ws.Sound sh flyout pool) :
    ∃ env ws', globalEnv.run ws = (.ok env, ws') ∧ env.Closed ∧ ws'.Sound sh flyout pool ∧
      ∀ root, sh.Top root → (∀ name, ¬ sh.Defines root name) → ∀ b place, sh.Connected root b →
        sh.Hosts b place → ws'.main.keptAt place = ws.main.keptAt place := by
  obtain ⟨env, ws', hrun, henv, hws'⟩ := ((steady_sound hsh).ends_globalEnv hsh hws).exists_run
  have hground : sh.Ground := by
    rw [← hws.1.1.1]
    exact Graph.ground_shape.2 hws.2.ground
  let K : Set BlockId :=
    {c | ∃ f p, sh.ports f = some p ∧ p.kind.function?.isSome ∧ sh.Connected f c}
  have hK : sh.Closed K := fun {b c} hbc =>
    ⟨fun ⟨f, p, hp, hf, hb⟩ => ⟨f, p, hp, hf, hb.trans hbc⟩,
      fun ⟨f, p, hp, hf, hc⟩ => ⟨f, p, hp, hf, hc.trans hbc.symm⟩⟩
  obtain ⟨⟨⟩, _, _, -, hrun', rfl, htwins⟩ :=
    (together_globalEnv hsh hK fun f p hp hf => ⟨f, p, hp, hf, .refl⟩).exists_run
      (Twins.self hws.1.1.1 K) hrun
  cases hrun'.symm.trans hrun
  refine ⟨env, ws', hrun, henv hground, hws', fun root hroot hnot b place hb hplace =>
    htwins.outside ?_ hplace⟩
  rintro ⟨f, p, hp, hf, hconn⟩
  obtain ⟨hf, name, hname⟩ := top_of_function hsh hp hf
  exact hnot name (hf.eq_of_connected hsh.toWired hroot (hconn.trans hb.symm) ▸ hname)

end WorkspaceM

end Plugboard
