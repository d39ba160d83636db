import Plugboard.Proofs.FailedRoots

/-!
# Roots are inferred independently

All roots share the pool, the environment and the canvas. Still the order in which they are
inferred does not matter, nor does it matter for a root which others are inferred with it, and a
root that fails leaves nothing behind but a warning.
-/

namespace Plugboard

open Equiv Shape

namespace Workspace

variable {ws ws₁ ws₂ : Workspace} {bs bs' : Set BlockId}

/-- The blocks whose warnings are removed before `roots` are inferred. -/
def stale (ws : Workspace) (roots : List BlockId) : Set BlockId :=
  {b | (∃ root ∈ roots, ws.main.shape.Connected root b) ∨
    ∃ f ∈ ws.functions, ws.main.shape.Below b f.1}

theorem stale_perm (ws : Workspace) {roots roots' : List BlockId} (h : roots.Perm roots') :
    ws.stale roots' = ws.stale roots := by
  simp only [stale, h.mem_iff]

/-- Nothing has changed but that there is no warning on some blocks any more. -/
structure Cleared (bs : Set BlockId) (ws ws' : Workspace) : Prop where
  shape : ws'.main.shape = ws.main.shape
  keptAt : ∀ place, ws'.main.keptAt place = ws.main.keptAt place
  flyout : ws'.flyout = ws.flyout
  pool : ws'.pool = ws.pool
  warned : ∀ b, (ws'.main.warningAt b).isSome ↔ (ws.main.warningAt b).isSome ∧ b ∉ bs

namespace Cleared

theorem refl (ws : Workspace) : Cleared ∅ ws ws :=
  ⟨rfl, fun _ => rfl, rfl, rfl, fun b => by simp⟩

theorem trans (h : Cleared bs ws ws₁) (h' : Cleared bs' ws₁ ws₂) :
    Cleared (bs ∪ bs') ws ws₂ where
  shape := h'.shape.trans h.shape
  keptAt place := (h'.keptAt place).trans (h.keptAt place)
  flyout := h'.flyout.trans h.flyout
  pool := h'.pool.trans h.pool
  warned b := by
    rw [h'.warned, h.warned, Set.mem_union, not_or, and_assoc]

theorem setWarning (ws : Workspace) (b : BlockId) :
    Cleared {b} ws { ws with
      main := ws.main.modifyBlock b fun block => { block with warning := none } } where
  shape := Graph.shape_modifyBlock fun _ => ⟨rfl, rfl, rfl⟩
  keptAt := Graph.keptAt_modifyBlock (fun _ => by rfl) b
  flyout := rfl
  pool := rfl
  warned c := by
    simp only [Graph.warningAt, Graph.getElem?_modifyBlock, Set.mem_singleton_iff]
    by_cases hc : b = c
    · simp [hc]
    · simp [hc, Ne.symm hc]

end Cleared

/-- Where two runs have the same types and the same warnings everywhere, nothing is renamed. -/
theorem Twins.renamed {sh : Shape} {old old' ws ws' : Workspace}
    (h : Twins sh Set.univ old old' ws ws') (hflyout : old'.flyout = old.flyout)
    (hwarned : ∀ b, (old'.main.warningAt b).isSome ↔ (old.main.warningAt b).isSome) :
    ws.Renamed 1 ws' := by
  have hid : ∀ t : Ty, t.rename (1 : Perm String) = t := Ty.bind_var
  refine .of_keptAt (h.shape'.trans h.shape.symm) (fun b => ?_) (fun hplace => ?_)
    (h.flyout'.trans (hflyout.trans h.flyout.symm)) fun _ => hid _
  · obtain ⟨new, hnew⟩ := h.warned
    rw [Bool.eq_iff_iff, (hnew b).1, (hnew b).2, hwarned]
  · rw [h.inside (Set.mem_univ _) (h.shape ▸ hplace), funext hid, Option.map_id']

end Workspace

namespace WorkspaceM

open Workspace

variable {sh flyout : Shape} {pool : VarPool} {env : Env} {ws : Workspace}

theorem ends_clearAll {bs : List BlockId} (h : ∀ b ∈ bs, ws.main.shape.Live b) :
    Ends (bs.forM fun b => onMain (GraphM.setWarning b none)) ws (fun _ => Cleared {b | b ∈ bs} ws)
      fun _ => False := by
  induction bs generalizing ws with
  | nil => simpa using Cleared.refl ws
  | cons b bs ih =>
      rw [List.forall_mem_cons] at h
      have hfirst := Cleared.setWarning ws b
      change Ends (_ >>= fun _ => bs.forM _) ws _ _
      rw [ends_bind]
      refine (ends_setWarning h.1 none).imp (fun _ ws₁ hws₁ => ?_) fun _ => id
      subst hws₁
      refine (ih (hfirst.shape.symm ▸ h.2)).imp (fun _ ws₂ hrest => ?_) fun _ => id
      have hall : {c | c ∈ b :: bs} = {b} ∪ {c | c ∈ bs} := by
        ext c
        simp
      exact hall ▸ hfirst.trans hrest

theorem ends_clearWarnings (hsh : ws.main.shape.Wired) {roots : List BlockId}
    (hroots : ∀ root ∈ roots, ws.main.shape.Live root) :
    Ends (clearWarnings roots) ws (fun _ => Cleared (ws.stale roots) ws) fun _ => False := by
  have htree : ∀ root, ∃ tree : BlockSet, root ∈ roots → ws.main.component root = .ok tree ∧
      ∀ c, c ∈ tree ↔ ws.main.shape.Connected root c := fun root => by
    by_cases hroot : root ∈ roots
    · obtain ⟨p, hp⟩ := hroots root hroot
      exact (Graph.exists_component_eq hsh hp).imp fun _ h _ => h
    · exact ⟨∅, fun h => (hroot h).elim⟩
  have hbody : ∀ f : BlockId × String × List String, ∃ body : BlockSet, f ∈ ws.functions →
      ws.main.descendants f.1 = .ok body ∧ ∀ c, c ∈ body ↔ ws.main.shape.Below c f.1 := fun f => by
    by_cases hf : f ∈ ws.functions
    · obtain ⟨p, hp⟩ := live_of_mem_functions hf
      exact (Graph.exists_descendants_eq hsh hp).imp fun _ h _ => h
    · exact ⟨∅, fun h => (hf h).elim⟩
  choose tree htree using htree
  choose body hbody using hbody
  rw [clearWarnings, ends_bind]
  refine (Ends.mapM_eq (r := tree) fun root hroot => ?_).imp (fun _ ws h => ?_) fun _ => id
  · rw [ends_ask, (htree root hroot).1]
    exact ⟨rfl, rfl⟩
  obtain ⟨rfl, rfl⟩ := h
  rw [ends_bind, ends_get, ends_bind]
  refine (Ends.mapM_eq (r := body) fun f hf => ?_).imp (fun _ ws h => ?_) fun _ => id
  · rw [ends_ask, (hbody f hf).1]
    exact ⟨rfl, rfl⟩
  obtain ⟨rfl, rfl⟩ := h
  have hstale : {c | c ∈ ((roots.map tree ++ ws.functions.map body).foldl (· ∪ ·) ∅).toList} =
      ws.stale roots := by
    ext c
    change c ∈ Std.ExtTreeSet.toList _ ↔ _
    rw [Std.ExtTreeSet.mem_toList, mem_foldl_union, or_iff_right Std.ExtTreeSet.not_mem_empty]
    constructor
    · rintro ⟨set, hset, hc⟩
      rcases List.mem_append.1 hset with hset | hset
      · obtain ⟨root, hroot, rfl⟩ := List.mem_map.1 hset
        exact .inl ⟨root, hroot, ((htree root hroot).2 c).1 hc⟩
      · obtain ⟨f, hf, rfl⟩ := List.mem_map.1 hset
        exact .inr ⟨f, hf, ((hbody f hf).2 c).1 hc⟩
    · rintro (⟨root, hroot, hc⟩ | ⟨f, hf, hc⟩)
      · exact ⟨_, List.mem_append_left _ (List.mem_map_of_mem hroot),
          ((htree root hroot).2 c).2 hc⟩
      · exact ⟨_, List.mem_append_right _ (List.mem_map_of_mem hf), ((hbody f hf).2 c).2 hc⟩
  refine (ends_clearAll fun c hc => ?_).imp (fun _ ws' h => ?_) fun _ => id
  · rcases hstale.le hc with ⟨root, hroot, hconn⟩ | ⟨f, hf, hbelow⟩
    · exact hsh.ports_of_connected (hroots root hroot) hconn
    · exact hsh.ports_of_connected (live_of_mem_functions hf) hbelow.connected.symm
  · exact hstale ▸ h

/-- What is inferred before it is the turn of what comes after `before` in `roots`. Gives the
environment of the run. -/
def inferBefore (roots before : List BlockId) : WorkspaceM Env := do
  clearWarnings roots
  let env ← globalEnv
  let _ ← total (inferRoot env) before
  return env

section

variable {roots before : List BlockId} {n : Nat} {ws₁ ws₂ ws₃ : Workspace}
  (hclear : (clearWarnings roots).run ws = (.ok ⟨⟩, ws₁))
  (henv : globalEnv.run ws₁ = (.ok env, ws₂))

include hclear henv

theorem run_inferBefore (htotal : (total (inferRoot env) before).run ws₂ = (.ok n, ws₃)) :
    (inferBefore roots before).run ws = (.ok env, ws₃) := by
  rw [inferBefore, run_bind hclear, run_bind henv, run_bind htotal]
  rfl

theorem run_inferRoots (htotal : (total (inferRoot env) roots).run ws₂ = (.ok n, ws₃)) :
    (inferRoots roots).run ws = (.ok ⟨n, ws₃.warnings⟩, ws₃) := by
  rw [inferRoots, run_bind hclear, run_bind henv, run_bind htotal]
  rfl

end

theorem exists_clearWarnings (hsh : sh.Regular ∅) (hws : ws.Sound sh flyout pool)
    {roots : List BlockId} (hroots : ∀ root ∈ roots, sh.Live root) :
    ∃ ws₁, (clearWarnings roots).run ws = (.ok ⟨⟩, ws₁) ∧ ws₁.Sound sh flyout pool ∧
      Cleared (ws.stale roots) ws ws₁ := by
  have hshape := hws.1.1.1
  have hsound := (steady_sound hsh).completes_clearWarnings hsh hroots ws hws
  have hcleared := ends_clearWarnings (hshape.symm ▸ hsh.toWired) (hshape.symm ▸ hroots)
  obtain ⟨⟨⟩, ws₁, hrun, h⟩ :=
    ((hsound.and hcleared).imp (fun _ _ => id) fun _ => And.left).exists_run
  exact ⟨ws₁, hrun, h⟩

/-- Functions and roots are inferred in the same way whichever warnings there have been. -/
theorem exists_twin_run (hsh : sh.Regular ∅) {roots : List BlockId}
    (hroots : ∀ root ∈ roots, sh.Live root) (hshape : ws.main.shape = sh)
    {bs bs' : Set BlockId} {ws₁ ws₁' ws₂ ws₃ : Workspace} (h : Cleared bs ws ws₁)
    (h' : Cleared bs' ws ws₁') (henv : globalEnv.run ws₁ = (.ok env, ws₂)) {n : Nat}
    (htotal : (total (inferRoot env) roots).run ws₂ = (.ok n, ws₃)) :
    ∃ ws₂' ws₃', globalEnv.run ws₁' = (.ok env, ws₂') ∧
      (total (inferRoot env) roots).run ws₂' = (.ok n, ws₃') ∧
      Twins sh Set.univ ws₁ ws₁' ws₃ ws₃' := by
  have huniv : sh.Closed Set.univ := fun _ => Iff.rfl
  have hstart : Twins sh Set.univ ws₁ ws₁' ws₁ ws₁' :=
    .of_agree (h.shape.trans hshape) (h'.shape.trans hshape) (h'.pool.trans h.pool.symm)
      fun _ _ => (h'.keptAt _).trans (h.keptAt _).symm
  obtain ⟨⟨⟩, _, ws₂', -, henv', rfl, htwins⟩ :=
    (together_globalEnv hsh huniv fun _ _ _ _ => Set.mem_univ _).exists_run hstart henv
  obtain ⟨⟨⟩, _, ws₃', -, htotal', rfl, htwins⟩ := (together_total fun root hroot =>
    together_inferRoot hsh huniv env (hroots root hroot) (Set.mem_univ _)).exists_run htwins htotal
  exact ⟨ws₂', ws₃', henv', htotal', htwins⟩

variable {roots roots' : List BlockId}

section

variable (hsh : sh.Regular ∅) (hws : ws.Sound sh flyout pool)
  (hroots : ∀ root ∈ roots, sh.Top root)

include hsh hws hroots

/-- Roots can be inferred in any order. -/
theorem exists_inferRoots_perm (hperm : roots.Perm roots') :
    ∃ r r' ws₁ ws₂, (inferRoots roots).run ws = (.ok r, ws₁) ∧
      (inferRoots roots').run ws = (.ok r', ws₂) ∧ r'.roots = r.roots ∧
      r'.warnings.map Prod.fst = r.warnings.map Prod.fst ∧
      ∃ π : Perm String, ws₁.Renamed π ws₂ := by
  have hlive := fun root hroot => (hroots root hroot).live
  have hlive' : ∀ root ∈ roots', sh.Live root := fun root hroot =>
    hlive root (hperm.mem_iff.2 hroot)
  obtain ⟨ws₁, hclear, hws₁, h₁⟩ := exists_clearWarnings hsh hws hlive
  obtain ⟨ws₁', hclear', hws₁', h₁'⟩ := exists_clearWarnings hsh hws hlive'
  obtain ⟨env, ws₂, henv, hclosed, hws₂, -⟩ := exists_globalEnv hsh hws₁
  obtain ⟨n, ws₃, ws₃', htotal, htotal', π, hrenamed⟩ :=
    exists_total_perm hsh hclosed hperm hroots hws₂
  obtain ⟨ws₂'', ws₃'', henv'', htotal'', htwins⟩ :=
    exists_twin_run hsh hlive' hws.1.1.1 h₁ h₁' henv htotal'
  -- the runs differ in when old warnings are removed as well, which no type depends on
  have hrenamed := hrenamed.trans <| htwins.renamed (h₁'.flyout.trans h₁.flyout.symm) fun b => by
    rw [h₁'.warned, h₁.warned, stale_perm ws hperm]
  have hws₃ := sound_of_total hsh hclosed hlive hws₂ htotal
  obtain ⟨_, _, henv', -, hws₂'', -⟩ := exists_globalEnv hsh hws₁'
  cases henv'.symm.trans henv''
  have hws₃'' := sound_of_total hsh hclosed hlive' hws₂'' htotal''
  obtain ⟨p, -, -, hp⟩ := hrenamed.exists_pairing hws₃.2.self hws₃''.2.self
  exact ⟨_, _, ws₃, ws₃'', run_inferRoots hclear henv htotal, run_inferRoots hclear' henv' htotal'',
    rfl, hp.warned_eq, _, hrenamed⟩

/-- A root that fails keeps the types of its component. -/
theorem exists_inferRoots_failing {before after : List BlockId} {root : BlockId}
    (hsplit : roots = before ++ root :: after) (hfirst : root ∉ before)
    (hfun : ∀ name, ¬ sh.Defines root name) :
    ∃ env turn r ws₁, (inferBefore roots before).run ws = (.ok env, turn) ∧
      (inferRoots roots).run ws = (.ok r, ws₁) ∧ (turn.Fails env root →
        ∀ b place, sh.Connected root b → sh.Hosts b place →
          ws₁.main.keptAt place = ws.main.keptAt place) := by
  have hlive := fun root hroot => (hroots root hroot).live
  obtain ⟨ws₁, hclear, hws₁, h₁⟩ := exists_clearWarnings hsh hws hlive
  obtain ⟨env, ws₂, henv, hclosed, hws₂, hsame⟩ := exists_globalEnv hsh hws₁
  subst hsplit
  rw [List.forall_mem_append] at hroots hlive
  have hroot := hroots.2 root List.mem_cons_self
  obtain ⟨n, turn, hbefore, hturn⟩ := exists_total hsh hclosed hlive.1 hws₂
  obtain ⟨m, ws₃, hafter, hws₃⟩ := exists_total hsh hclosed hlive.2 hturn
  refine ⟨env, turn, _, ws₃, run_inferBefore hclear henv hbefore,
    run_inferRoots hclear henv (run_total_append hbefore hafter),
    fun hfails b place hb hplace => ?_⟩
  have hunmoved :=
    unmoved_of_total hsh hclosed hws₂ hroot hroots.1 (fun h => (hfirst h).elim) hbefore
  have hunmoved' := unmoved_of_total hsh hclosed hturn hroot hroots.2 (fun _ => hfails) hafter
  calc ws₃.main.keptAt place = turn.main.keptAt place := hunmoved'.keptAt hb hplace
    _ = ws₂.main.keptAt place := hunmoved.keptAt hb hplace
    _ = ws₁.main.keptAt place := hsame root hroot hfun b place hb hplace
    _ = ws.main.keptAt place := h₁.keptAt place

/-- It does not matter for a root which others are inferred with it. -/
theorem exists_inferRoots_filter (keep : BlockId → Bool) :
    ∃ r r' ws₁ ws₂, (inferRoots roots).run ws = (.ok r, ws₁) ∧
      (inferRoots (roots.filter keep)).run ws = (.ok r', ws₂) ∧
      ∃ π : Perm String, ∀ root ∈ roots.filter keep, ∀ b place, sh.Connected root b →
        sh.Hosts b place → ws₂.main.keptAt place = (ws₁.main.keptAt place).map (Ty.rename π) := by
  let kept := roots.filter keep
  let removed := roots.filter fun root => !keep root
  have hlive := fun root hroot => (hroots root hroot).live
  have hkept : ∀ root ∈ kept, sh.Top root := fun root hroot =>
    hroots root (List.mem_of_mem_filter hroot)
  have hremoved : ∀ root ∈ removed, sh.Top root := fun root hroot =>
    hroots root (List.mem_of_mem_filter hroot)
  -- what is removed can as well be inferred last, and then has no part in what the others get
  have hperm : roots.Perm (kept ++ removed) := (List.filter_append_perm keep roots).symm
  obtain ⟨ws₁, hclear, hws₁, h₁⟩ := exists_clearWarnings hsh hws hlive
  obtain ⟨ws₁', hclear', hws₁', h₁'⟩ :=
    exists_clearWarnings hsh hws fun root hroot => (hkept root hroot).live
  obtain ⟨env, ws₂, henv, hclosed, hws₂, -⟩ := exists_globalEnv hsh hws₁
  obtain ⟨n, ws₃, ws₃', htotal, htotal', π, hrenamed⟩ :=
    exists_total_perm hsh hclosed hperm hroots hws₂
  obtain ⟨k, ws₄, hkeep, hws₄⟩ :=
    exists_total hsh hclosed (fun root hroot => (hkept root hroot).live) hws₂
  obtain ⟨m, ws₅, hrest, -⟩ :=
    exists_total hsh hclosed (fun root hroot => (hremoved root hroot).live) hws₄
  cases (run_total_append hkeep hrest).symm.trans htotal'
  obtain ⟨ws₂', ws₄', henv', hkeep', htwins⟩ := exists_twin_run hsh
    (fun root hroot => (hkept root hroot).live) hws.1.1.1 h₁ h₁' henv hkeep
  refine ⟨_, _, ws₃, ws₄', run_inferRoots hclear henv htotal, run_inferRoots hclear' henv' hkeep',
    π, fun root hroot b place hb hplace => ?_⟩
  have hnot : root ∉ removed := fun hmem => by
    have hkeep := (List.mem_filter.1 hroot).2
    simpa [hkeep] using (List.mem_filter.1 hmem).2
  have hunmoved := unmoved_of_total hsh hclosed hws₄ (hkept root hroot) hremoved
    (fun h => (hnot h).elim) hrest
  calc ws₄'.main.keptAt place = ws₄.main.keptAt place := htwins.inside (Set.mem_univ b) hplace
    _ = ws₃'.main.keptAt place := (hunmoved.keptAt hb hplace).symm
    _ = (ws₃.main.keptAt place).map (Ty.rename π) := hrenamed.keptAt place

end

end WorkspaceM

namespace Workspace

open WorkspaceM

/-- Roots are inferred independently of each other. -/
structure IndependentRoots (ws : Workspace) (roots : List BlockId) : Prop where
  /-- In another order they lead to the same warnings and, up to names, to the same types. -/
  reorder : ∀ roots', roots.Perm roots' → ∃ r r' ws₁ ws₂,
    (inferRoots roots).run ws = (.ok r, ws₁) ∧ (inferRoots roots').run ws = (.ok r', ws₂) ∧
    r'.roots = r.roots ∧ r'.warnings.map Prod.fst = r.warnings.map Prod.fst ∧
    ∃ π : Perm String, ws₁.Renamed π ws₂
  /-- One that is no function and fails when it is its turn changes no type of its component. -/
  fail : ∀ before root after, roots = before ++ root :: after → root ∉ before →
    (∀ name, ¬ ws.main.shape.Defines root name) → ∃ env turn r ws₁,
    (inferBefore roots before).run ws = (.ok env, turn) ∧
    (inferRoots roots).run ws = (.ok r, ws₁) ∧
    (turn.Fails env root → ∀ b place, ws.main.shape.Connected root b →
      ws.main.shape.Hosts b place → ws₁.main.keptAt place = ws.main.keptAt place)
  /-- Without some of them the others get the same types, up to names. -/
  remove : ∀ keep : BlockId → Bool, ∃ r r' ws₁ ws₂,
    (inferRoots roots).run ws = (.ok r, ws₁) ∧
    (inferRoots (roots.filter keep)).run ws = (.ok r', ws₂) ∧
    ∃ π : Perm String, ∀ root ∈ roots.filter keep, ∀ b place, ws.main.shape.Connected root b →
      ws.main.shape.Hosts b place →
      ws₂.main.keptAt place = (ws₁.main.keptAt place).map (Ty.rename π)

/-- Any blocks that are plugged into nothing can be inferred independently of each other. -/
theorem Reachable.independentRoots {ws : Workspace}
    (h : ws.Reachable fun ws command => command.AddsUnrepeated ws ∧ command.AddsGround ws)
    {roots : List BlockId} (hroots : ∀ root ∈ roots, root ∈ ws.main.topBlocks) :
    ws.IndependentRoots roots := by
  have hregular : ws.main.shape.Regular ∅ := (h.mono fun _ _ => And.left).settled.1.1
  have hsound : ws.Sound ws.main.shape ws.flyout.shape ws.pool :=
    ⟨⟨⟨rfl, rfl⟩, (h.mono fun _ _ => And.left).settled.2⟩, (h.mono fun _ _ => And.right).accounted⟩
  have htops : ∀ root ∈ roots, ws.main.shape.Top root := fun root hroot =>
    Graph.top_of_mem_topBlocks hregular.toWired (hroots root hroot)
  exact {
    reorder := fun _ => exists_inferRoots_perm hregular hsound htops
    fail := fun _ _ _ => exists_inferRoots_failing hregular hsound htops
    remove := exists_inferRoots_filter hregular hsound htops }

/-- Beside a lambda there is a variable that is bound nowhere, whose inference fails. -/
theorem independentRoots_unbound_variable :
    let ws := [.add .main (.variable "y"), .add .main (.lambda "x")].foldl after
      (ofSettings default)
    ws.main.topBlocks = [⟨0⟩, ⟨1⟩] ∧ ws.Fails Prelude.env ⟨0⟩ ∧
      ws.IndependentRoots [⟨0⟩, ⟨1⟩] := by
  intro ws
  have htops : ws.main.topBlocks = [⟨0⟩, ⟨1⟩] := by
    subst ws
    cbv
  have htrees : ws.treesOf ⟨0⟩ = [(⟨0⟩, none)] := by
    subst ws
    cbv
  have houtcome :
      ws.outcomeOf Prelude.env ⟨0⟩ none = .error (.unbound "y" (some (.block ⟨0⟩))) := by
    subst ws
    cbv
  refine ⟨htops, fun tree htree => ?_, Reachable.independentRoots ((Reachable.start default).foldl
    (by simp [Command.AddsUnrepeated, BlockKind.Unrepeated, Command.AddsGround, BlockKind.Ground]))
    fun root hroot => htops ▸ hroot⟩
  rw [htrees, List.mem_singleton] at htree
  exact htree ▸ ⟨_, houtcome⟩

end Workspace

end Plugboard
