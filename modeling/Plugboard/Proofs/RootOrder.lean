import Plugboard.Proofs.CheckedTypes
import Plugboard.Proofs.Locality
import Plugboard.Proofs.Transparency

/-!
# The order of roots does not matter

A root comes to the same, up to the names of new type variables, wherever its component looks the
same. So two roots can change places, and from that it follows that they can be inferred in any
order.
-/

namespace Plugboard

open Equiv Shape Workspace

namespace Pairing

variable {p p₁ q₁ p₂ q₂ : Pairing}

theorem Workspaces.keptAt {ws ws' : Workspace} (h : p.Workspaces ws ws') (place : Place) :
    Option.Rel p.Types (ws.main.keptAt place) (ws'.main.keptAt place) := by
  cases place with
  | socket s =>
      have hs := h.main.sockets s
      rw [Graph.keptAt, Graph.keptAt, Graph.tyAt, Graph.tyAt]
      generalize ws.main.sockets[s]? = x at hs ⊢
      generalize ws'.main.sockets[s]? = x' at hs ⊢
      cases hs with
      | none => exact .none
      | some hx => exact hx.ty
  | param b name =>
      have hb := h.main.blocks b
      rw [Graph.keptAt, Graph.keptAt, Graph.paramAt, Graph.paramAt]
      generalize ws.main.blocks[b]? = x at hb ⊢
      generalize ws'.main.blocks[b]? = x' at hb ⊢
      cases hb with
      | none => exact .none
      | some hx => exact hx.params name

theorem eq_map_of_agree {π : Perm String} {t t' : Option Ty} (h : Option.Rel p.Types t t')
    (hπ : ∀ v, p.known v → π v = p.rename v) : t' = t.map (Ty.rename π) := by
  cases h with
  | none => rfl
  | some ht =>
      rw [ht.eq]
      exact congrArg some (Ty.rename_congr fun v hv => (hπ v (ht.known v hv)).symm)

theorem eq_map_of_invert {π : Perm String} {t t' : Option Ty} (h : Option.Rel p.Types t t')
    (hπ : ∀ v, p.known v → π (p.rename v) = v) : t = t'.map (Ty.rename π) := by
  cases h with
  | none => rfl
  | @some t _ ht =>
      rw [ht.eq, Option.map_some, Ty.rename_rename, Option.some.injEq]
      calc t = t.rename id := (Ty.bind_var t).symm
        _ = t.rename (π ∘ p.rename) := Ty.rename_congr fun v hv => (hπ v (ht.known v hv)).symm

/-- Names that were in use before keep their names. -/
theorem Extends.rename_old (h : p ≤ q₁) (hid : p.rename = 1) {v : String} (hv : q₁.known v)
    (hold : p.left.isUsed v) : q₁.rename v = v := by
  have hknown := (h.left_new v hv).resolve_right fun hnew => hnew hold
  rw [h.rename v hknown, hid]
  rfl

/-- Names that were not in use are taken to names that were not. -/
theorem Extends.rename_new (h : p ≤ q₁) {v : String} (hv : q₁.known v)
    (hnew : ¬ p.left.isUsed v) : ¬ p.right.isUsed (q₁.rename v) :=
  (h.right_new v hv).resolve_left fun hknown => hnew (p.left_used v hknown)

/-- Two steps that have started from the same names can be joined to one renaming, if each takes
its new names where the other one has left off. -/
theorem exists_perm_joining (h₁ : p₁ ≤ q₁) (h₂ : p₂ ≤ q₂) (hid₁ : p₁.rename = 1)
    (hid₂ : p₂.rename = 1) (hleft : p₂.left = p₁.left) (hright₁ : p₁.right = q₂.left)
    (hright₂ : p₂.right = q₁.left) :
    ∃ π : Perm String, (∀ v, p₁.left.isUsed v → π v = v) ∧
      (∀ v, q₁.known v → π v = q₁.rename v) ∧ ∀ v, q₂.known v → π (q₂.rename v) = v := by
  classical
  let new (q : Pairing) : List String :=
    (q.left.names.filter fun v => q.known v ∧ ¬ p₁.left.isUsed v).dedup
  have hnew : ∀ {q : Pairing} {v}, v ∈ new q ↔ q.known v ∧ ¬ p₁.left.isUsed v := by
    intro q v
    have hmem : q.known v → v ∈ q.left.names := fun hv => by
      obtain ⟨e, he, rfl, -⟩ := (VarPool.isUsed_iff q.left_distinct v).1 (q.left_used v hv)
      exact List.mem_map_of_mem he
    simp only [new, List.mem_dedup, List.mem_filter, decide_eq_true_eq]
    exact and_iff_right_of_imp fun hv => hmem hv.1
  -- what is new in one step is not in use where the other one has left off
  have hfresh₁ : ∀ v ∈ new q₁, ¬ q₂.left.isUsed (q₁.rename v) := fun v hv =>
    hright₁ ▸ h₁.rename_new (hnew.1 hv).1 (hnew.1 hv).2
  have hfresh₂ : ∀ v ∈ new q₂, ¬ q₁.left.isUsed (q₂.rename v) := fun v hv =>
    hright₂ ▸ h₂.rename_new (hnew.1 hv).1 (hleft ▸ (hnew.1 hv).2)
  let pairs : List (String × String) :=
    (new q₁).map (fun v => (v, q₁.rename v)) ++ (new q₂).map fun v => (q₂.rename v, v)
  have hfsts : pairs.map Prod.fst = new q₁ ++ (new q₂).map q₂.rename := by
    simp [pairs, Function.comp_def]
  have hsnds : pairs.map Prod.snd = (new q₁).map q₁.rename ++ new q₂ := by
    simp [pairs, Function.comp_def]
  have hfst : (pairs.map Prod.fst).Nodup := by
    rw [hfsts]
    refine (List.nodup_dedup _).append ((List.nodup_dedup _).map q₂.rename.injective) ?_
    intro v hv hv'
    obtain ⟨u, hu, rfl⟩ := List.mem_map.1 hv'
    exact hfresh₂ u hu (q₁.left_used _ (hnew.1 hv).1)
  have hsnd : (pairs.map Prod.snd).Nodup := by
    rw [hsnds]
    refine ((List.nodup_dedup _).map q₁.rename.injective).append (List.nodup_dedup _) ?_
    intro v hv hv'
    obtain ⟨u, hu, rfl⟩ := List.mem_map.1 hv
    exact hfresh₁ u hu (q₂.left_used _ (hnew.1 hv').1)
  obtain ⟨π, hpairs, hother⟩ := exists_perm_agreeing hfst hsnd 1
  have hold : ∀ v, p₁.left.isUsed v → π v = v := by
    intro v hv
    have hv₁ := h₁.left_used v hv
    have hv₂ := h₂.left_used v (hleft.symm ▸ hv)
    refine hother v (fun hmem => ?_) fun hmem => ?_
    · rw [hfsts, List.mem_append, List.mem_map] at hmem
      rcases hmem with hmem | ⟨u, hu, rfl⟩
      · exact (hnew.1 hmem).2 hv
      · exact hfresh₂ u hu hv₁
    · rw [hsnds, List.mem_append, List.mem_map] at hmem
      rcases hmem with ⟨u, hu, rfl⟩ | hmem
      · exact hfresh₁ u hu hv₂
      · exact (hnew.1 hmem).2 hv
  refine ⟨π, hold, fun v hv => ?_, fun v hv => ?_⟩
  · by_cases hused : p₁.left.isUsed v
    · rw [h₁.rename_old hid₁ hv hused, hold v hused]
    · exact hpairs (v, q₁.rename v)
        (List.mem_append_left _ (List.mem_map_of_mem (hnew.2 ⟨hv, hused⟩)))
  · by_cases hused : p₁.left.isUsed v
    · rw [h₂.rename_old hid₂ hv (hleft.symm ▸ hused), hold v hused]
    · exact hpairs (q₂.rename v, v)
        (List.mem_append_right _ (List.mem_map_of_mem (hnew.2 ⟨hv, hused⟩)))

end Pairing

/-- More names may have been handed out. -/
theorem Workspace.Accounted.exists_pairing_later {ws : Workspace} {pool later : VarPool}
    (h : ws.Accounted pool) (hlater : ws.pool.Extended later) :
    ∃ p : Pairing, p.rename = 1 ∧ (∀ v, ws.Occurs v → p.known v) ∧
      p.Workspaces ws { ws with pool := later } :=
  have hrenamed : ws.Renamed 1 { ws with pool := later } :=
    (Renamed.refl ws).congr (fun _ => rfl) fun canvas => by cases canvas <;> rfl
  hrenamed.exists_pairing h.self (h.extend hlater).self

namespace Shape

variable {sh : Shape} {b c : BlockId}

/-- The block is there and plugged into nothing. -/
structure Top (sh : Shape) (b : BlockId) : Prop where
  live : sh.Live b
  not_plugged : ∀ c, ¬ sh.Plugged b c

/-- Each component has one top. -/
theorem Top.eq_of_connected (hsh : sh.Wired) (hb : sh.Top b) (hc : sh.Top c)
    (h : sh.Connected b c) : b = c :=
  hsh.eq_of_below_tops hb.not_plugged hc.not_plugged (hsh.below_of_connected hb.not_plugged h)
    .refl

end Shape

theorem Graph.top_of_mem_topBlocks {g : Graph} (h : g.shape.Wired) {b : BlockId}
    (hb : b ∈ g.topBlocks) : g.shape.Top b :=
  have htop := (List.mem_filter.1 hb).2
  ⟨live_of_isTop htop, not_plugged_of_isTop h htop⟩

namespace WorkspaceM

variable {sh flyout : Shape} {pool : VarPool} {env : Env} {root : BlockId}

/-- A step from `old` to `ws` and one from `old'` to `ws'` that come to the same on the blocks in
`K`, up to names, and change no types elsewhere. -/
structure Replays (sh : Shape) (K : Set BlockId) (p q : Pairing) (old ws old' ws' : Workspace) :
    Prop where
  le : p ≤ q
  rename : p.rename = 1
  left : p.left = old.pool ∧ q.left = ws.pool
  right : p.right = old'.pool ∧ q.right = ws'.pool
  shape' : ws'.main.shape = sh
  inside : ∀ {b place}, b ∈ K → sh.Hosts b place →
    Option.Rel q.Types (ws.main.keptAt place) (ws'.main.keptAt place)
  outside : ∀ {b place}, b ∉ K → sh.Hosts b place →
    ws.main.keptAt place = old.main.keptAt place
  outside' : ∀ {b place}, b ∉ K → sh.Hosts b place →
    ws'.main.keptAt place = old'.main.keptAt place
  flyout : ws.flyout = old.flyout
  flyout' : ws'.flyout = old'.flyout
  warned : ∃ new : BlockId → Prop, ∀ b,
    ((ws.main.warningAt b).isSome ↔ (old.main.warningAt b).isSome ∨ new b) ∧
      ((ws'.main.warningAt b).isSome ↔ (old'.main.warningAt b).isSome ∨ new b)

/-- Inference of a root changes types of what is plugged together with it only. -/
theorem twins_of_inferRoot (hsh : sh.Regular ∅) (hroot : sh.Live root) {old ws : Workspace}
    (hold : old.main.shape = sh) {n : Nat} (hrun : (inferRoot env root).run old = (.ok n, ws)) :
    Twins sh {b | sh.Connected root b} old old ws ws := by
  obtain ⟨⟨⟩, _, _, -, hrun', rfl, htwins⟩ :=
    (together_inferRoot hsh (closed_connected root) env hroot .refl).exists_run
      (Twins.self hold _) hrun
  cases hrun'.symm.trans hrun
  exact htwins

/-- Inference of a root comes to the same, up to names, wherever the types that are plugged
together with the root are the same. -/
theorem exists_replay (hsh : sh.Regular ∅) (henv : env.Closed) (hroot : sh.Live root)
    {old ws old' : Workspace} (hold : old.Sound sh flyout pool)
    (hold' : old'.Sound sh flyout old.pool)
    (hagree : ∀ {b place}, sh.Connected root b → sh.Hosts b place →
      old'.main.keptAt place = old.main.keptAt place)
    {n : Nat} (hrun : (inferRoot env root).run old = (.ok n, ws)) :
    ∃ p q ws', (inferRoot env root).run old' = (.ok n, ws') ∧
      Replays sh {b | sh.Connected root b} p q old ws old' ws' := by
  -- first only the pool is another one
  let mid : Workspace := { old with pool := old'.pool }
  obtain ⟨p, hid, -, hp⟩ : ∃ p : Pairing, p.rename = 1 ∧ _ ∧ p.Workspaces old mid :=
    hold.2.exists_pairing_later hold'.2.extended
  obtain ⟨q, _, mid', hle, hrun', rfl, hq⟩ :=
    (Pairing.steps_inferRoot (p := p) (.of_closed henv) root).exists_run hp hrun
  -- then other types and warnings are
  have hstart : Twins sh {b | sh.Connected root b} mid old' mid old' :=
    .of_agree hold.1.1.1 hold'.1.1.1 rfl hagree
  obtain ⟨⟨⟩, _, ws', -, hrun', rfl, htwins⟩ :=
    (together_inferRoot hsh (closed_connected root) env hroot .refl).exists_run hstart hrun'
  have hself := twins_of_inferRoot hsh hroot hold.1.1.1 hrun
  obtain ⟨new, hnew⟩ := htwins.warned
  refine ⟨p, q, ws', hrun', hle, hid, ⟨hp.left.symm, hq.left.symm⟩,
    ⟨hp.right.symm, hq.right.symm.trans htwins.pool.symm⟩, htwins.shape', fun hb hplace => ?_,
    hself.outside, htwins.outside', hself.flyout, htwins.flyout', new, fun b => ⟨?_, (hnew b).2⟩⟩
  · rw [htwins.inside hb hplace]
    exact hq.keptAt _
  · have hwarned : (mid'.main.warningAt b).isSome = (ws.main.warningAt b).isSome :=
      hq.renamed.warned .main b
    rw [← hwarned]
    exact (hnew b).1

variable {n₁ n₂ : Nat} {r₁ r₂ : BlockId} {ws ws₁ ws₂ : Workspace}

/-- Two roots that are not plugged together can be inferred in either order. -/
theorem exists_swap (hsh : sh.Regular ∅) (henv : env.Closed) (hr₁ : sh.Live r₁) (hr₂ : sh.Live r₂)
    (hapart : ¬ sh.Connected r₁ r₂) (hws : ws.Sound sh flyout pool)
    (hws₁ : ws₁.Sound sh flyout ws.pool) (hws₂ : ws₂.Sound sh flyout ws.pool)
    (hrun₁ : (inferRoot env r₁).run ws = (.ok n₁, ws₁))
    (hrun₂ : (inferRoot env r₂).run ws = (.ok n₂, ws₂)) :
    ∃ ws₁₂ ws₂₁, (inferRoot env r₂).run ws₁ = (.ok n₂, ws₁₂) ∧
      (inferRoot env r₁).run ws₂ = (.ok n₁, ws₂₁) ∧ ∃ π, ws₁₂.Renamed π ws₂₁ := by
  have hself₁ := twins_of_inferRoot hsh hr₁ hws.1.1.1 hrun₁
  have hself₂ := twins_of_inferRoot hsh hr₂ hws.1.1.1 hrun₂
  have hapart' : ∀ {b}, sh.Connected r₁ b → ¬ sh.Connected r₂ b := fun h h' =>
    hapart (h.trans h'.symm)
  -- neither root can tell whether the other one has been inferred before it
  obtain ⟨p₁, q₁, ws₂₁, hrun₂₁, h₁⟩ := exists_replay hsh henv hr₁ hws hws₂
    (fun hb hplace => hself₂.outside (hapart' hb) hplace) hrun₁
  obtain ⟨p₂, q₂, ws₁₂, hrun₁₂, h₂⟩ := exists_replay hsh henv hr₂ hws hws₁
    (fun hb hplace => hself₁.outside (fun hb' => hapart' hb' hb) hplace) hrun₂
  obtain ⟨π, hold, hnew₁, hnew₂⟩ := Pairing.exists_perm_joining h₁.le h₂.le h₁.rename h₂.rename
    (h₂.left.1.trans h₁.left.1.symm) (h₁.right.1.trans h₂.left.2.symm)
    (h₂.right.1.trans h₁.left.2.symm)
  have hsame : ∀ canvas {place t}, (ws.graph canvas).keptAt place = some t → t.rename π = t := by
    intro canvas place t ht
    refine (Ty.rename_congr fun v hv => ?_).trans (Ty.bind_var t)
    exact hold v (h₁.left.1.symm ▸ (hws.2.every canvas).keptAt ht v hv)
  refine ⟨ws₁₂, ws₂₁, hrun₁₂, hrun₂₁, π, .of_keptAt (h₁.shape'.trans h₂.shape'.symm) (fun b => ?_)
    (fun {b place} hplace => ?_) ?_ fun {place t} ht => ?_⟩
  · obtain ⟨new₁, hnew₁⟩ := h₁.warned
    obtain ⟨new₂, hnew₂⟩ := h₂.warned
    rw [Bool.eq_iff_iff, (hnew₁ b).2, (hnew₂ b).1, (hnew₂ b).2, (hnew₁ b).1]
    exact or_right_comm
  · -- a type is from the one root, from the other one, or as old as both runs
    rw [h₂.shape'] at hplace
    by_cases hb₁ : sh.Connected r₁ b
    · rw [h₂.outside' (hapart' hb₁) hplace]
      exact Pairing.eq_map_of_agree (h₁.inside hb₁ hplace) hnew₁
    rw [h₁.outside' hb₁ hplace]
    by_cases hb₂ : sh.Connected r₂ b
    · exact Pairing.eq_map_of_invert (h₂.inside hb₂ hplace) hnew₂
    · rw [h₂.outside hb₂ hplace, h₂.outside' hb₂ hplace, h₁.outside hb₁ hplace]
      cases ht : ws.main.keptAt place with
      | none => rfl
      | some t => exact congrArg some (hsame .main ht).symm
  · rw [h₁.flyout', h₂.flyout', h₁.flyout, h₂.flyout]
  · rw [h₂.flyout', h₁.flyout] at ht
    exact hsame .flyout ht

theorem total_append {α : Type} (action : α → WorkspaceM Nat) (xs ys : List α) :
    total action (xs ++ ys) = do
      let n ← total action xs
      let m ← total action ys
      return n + m := by
  have hshift : ∀ ys n, ys.foldlM (fun sum x => return sum + (← action x)) n =
      (do let m ← total action ys; return n + m) := by
    intro ys
    induction ys with
    | nil => exact fun n => rfl
    | cons y ys ih =>
        intro n
        rw [List.foldlM_cons, total, List.foldlM_cons]
        simp only [bind_assoc, pure_bind, ih, Nat.zero_add, Nat.add_assoc]
  rw [total, List.foldlM_append]
  exact bind_congr fun n => hshift ys n

/-- A sum is taken part by part. -/
theorem run_total_append {α : Type} {action : α → WorkspaceM Nat} {xs ys : List α} {n m : Nat}
    {ws ws₁ ws₂ : Workspace} (hxs : (total action xs).run ws = (.ok n, ws₁))
    (hys : (total action ys).run ws₁ = (.ok m, ws₂)) :
    (total action (xs ++ ys)).run ws = (.ok (n + m), ws₂) := by
  rw [total_append, run_bind hxs, run_bind hys]
  rfl

theorem run_total_cons {α : Type} {action : α → WorkspaceM Nat} {x : α} {xs : List α} {n m : Nat}
    {ws ws₁ ws₂ : Workspace} (hx : (action x).run ws = (.ok n, ws₁))
    (hxs : (total action xs).run ws₁ = (.ok m, ws₂)) :
    (total action (x :: xs)).run ws = (.ok (n + m), ws₂) := by
  have hsingle : total action [x] = action x := by
    simp only [total, List.foldlM_cons, List.foldlM_nil, Nat.zero_add, bind_pure]
  have hfirst : (total action [x]).run ws = (.ok n, ws₁) := hsingle.symm ▸ hx
  exact run_total_append hfirst hxs

/-- Inference of roots succeeds, and what it needs to succeed is still there. -/
theorem exists_total (hsh : sh.Regular ∅) (henv : env.Closed) {roots : List BlockId}
    (hroots : ∀ root ∈ roots, sh.Live root) (hws : ws.Sound sh flyout pool) :
    ∃ n ws₁, (total (inferRoot env) roots).run ws = (.ok n, ws₁) ∧ ws₁.Sound sh flyout pool :=
  (completes_total (fun root hroot => (steady_sound hsh).completes_inferRoot hsh (fun _ => henv)
    (hroots root hroot)) ws hws).exists_run

theorem exists_inferRoot (hsh : sh.Regular ∅) (henv : env.Closed) (hroot : sh.Live root)
    (hws : ws.Sound sh flyout pool) :
    ∃ n ws₁, (inferRoot env root).run ws = (.ok n, ws₁) ∧ ws₁.Sound sh flyout pool :=
  ((steady_sound hsh).completes_inferRoot hsh (fun _ => henv) hroot ws hws).exists_run

theorem sound_of_inferRoot (hsh : sh.Regular ∅) (henv : env.Closed) (hroot : sh.Live root)
    (hws : ws.Sound sh flyout pool) {n : Nat} (hrun : (inferRoot env root).run ws = (.ok n, ws₁)) :
    ws₁.Sound sh flyout pool :=
  ((steady_sound hsh).completes_inferRoot hsh (fun _ => henv) hroot ws hws).of_run_eq hrun

theorem sound_of_total (hsh : sh.Regular ∅) (henv : env.Closed) {roots : List BlockId}
    (hroots : ∀ root ∈ roots, sh.Live root) (hws : ws.Sound sh flyout pool) {n : Nat}
    (hrun : (total (inferRoot env) roots).run ws = (.ok n, ws₁)) : ws₁.Sound sh flyout pool :=
  (completes_total (fun root hroot => (steady_sound hsh).completes_inferRoot hsh (fun _ => henv)
    (hroots root hroot)) ws hws).of_run_eq hrun

/-- The order of roots does not matter. -/
theorem exists_total_perm (hsh : sh.Regular ∅) (henv : env.Closed) {roots roots' : List BlockId}
    (hperm : roots.Perm roots') (hroots : ∀ root ∈ roots, sh.Top root)
    (hws : ws.Sound sh flyout pool) :
    ∃ n ws₁ ws₂, (total (inferRoot env) roots).run ws = (.ok n, ws₁) ∧
      (total (inferRoot env) roots').run ws = (.ok n, ws₂) ∧ ∃ π, ws₁.Renamed π ws₂ := by
  -- the workspace that the runs start from changes with the roots that are dealt with
  induction hperm generalizing ws with
  | nil => exact ⟨0, ws, ws, rfl, rfl, 1, .refl ws⟩
  | @cons r roots roots' hperm ih =>
      rw [List.forall_mem_cons] at hroots
      obtain ⟨n, ws', hrun, hws'⟩ := exists_inferRoot hsh henv hroots.1.live hws
      obtain ⟨m, ws₁, ws₂, hrun₁, hrun₂, hrenamed⟩ := ih hroots.2 hws'
      exact ⟨n + m, ws₁, ws₂, run_total_cons hrun hrun₁, run_total_cons hrun hrun₂, hrenamed⟩
  | swap r r' roots =>
      rw [List.forall_mem_cons, List.forall_mem_cons] at hroots
      obtain ⟨hr', hr, htops⟩ := hroots
      have hlive := fun root hroot => (htops root hroot).live
      by_cases hsame : r' = r
      · subst hsame
        have hboth : ∀ root ∈ r' :: r' :: roots, sh.Live root := by
          simpa using ⟨hr.live, hlive⟩
        obtain ⟨n, ws₁, hrun, -⟩ := exists_total hsh henv hboth hws
        exact ⟨n, ws₁, ws₁, hrun, hrun, 1, .refl ws₁⟩
      have hws := (⟨hws.1, hws.2.self⟩ : ws.Sound sh flyout ws.pool)
      obtain ⟨n₁, ws₁, hrun₁, hws₁⟩ := exists_inferRoot hsh henv hr'.live hws
      obtain ⟨n₂, ws₂, hrun₂, hws₂⟩ := exists_inferRoot hsh henv hr.live hws
      obtain ⟨ws₁₂, ws₂₁, hrun₁₂, hrun₂₁, π, hrenamed⟩ := exists_swap hsh henv hr'.live hr.live
        (fun h => hsame (hr'.eq_of_connected hsh.toWired hr h)) hws hws₁ hws₂ hrun₁ hrun₂
      have hws₁₂ := sound_of_inferRoot hsh henv hr.live hws₁ hrun₁₂
      have hws₂₁ := sound_of_inferRoot hsh henv hr'.live hws₂ hrun₂₁
      obtain ⟨m, ws₃, hrun₃, -⟩ := exists_total hsh henv hlive hws₁₂
      -- what comes after the two does not depend on names
      obtain ⟨p, -, -, hp⟩ := hrenamed.exists_pairing hws₁₂.2.self hws₂₁.2.self
      obtain ⟨q, _, ws₃', -, hrun₃', rfl, hq⟩ := (Pairing.steps_total fun q root _ =>
        Pairing.steps_inferRoot (.of_closed henv) root).exists_run hp hrun₃
      refine ⟨n₁ + (n₂ + m), ws₃, ws₃', run_total_cons hrun₁ (run_total_cons hrun₁₂ hrun₃), ?_,
        q.rename, hq.renamed⟩
      rw [Nat.add_left_comm]
      exact run_total_cons hrun₂ (run_total_cons hrun₂₁ hrun₃')
  | trans hperm hperm' ih ih' =>
      obtain ⟨n, ws₁, ws₂, hrun₁, hrun₂, π, hrenamed⟩ := ih hroots hws
      obtain ⟨_, _, ws₃, hrun₂', hrun₃, ρ, hrenamed'⟩ :=
        ih' (fun root hroot => hroots root (hperm.mem_iff.2 hroot)) hws
      cases hrun₂.symm.trans hrun₂'
      exact ⟨n, ws₁, ws₃, hrun₁, hrun₃, ρ * π, hrenamed.trans hrenamed'⟩

end WorkspaceM

end Plugboard
