import Plugboard.Proofs.Accounting
import Plugboard.Proofs.FoundTypes
import Plugboard.Proofs.PortTypes

/-!
# Inference checks what it infers

Wherever a tree is inferred, there is a warning afterwards or the types on all of its blocks fit
together; and what has been checked stays so while the rest is inferred, for types that are kept
later on only make those that are there more special.
-/

namespace Plugboard

open Shape Workspace

section

variable {ε σ α β γ : Type} {I : σ → Prop} {P : γ → σ → Prop} {new new' : Set γ}

/-- Wherever `I` holds the action succeeds and `I` still holds, and so does `P` of all that it held
of before and of what is new. -/
def Establishes (I : σ → Prop) (P : γ → σ → Prop) (new : Set γ) (x : ExceptT ε (StateM σ) α) :
    Prop :=
  ∀ s, I s → Ends x s (fun _ s' => I s' ∧ ∀ c, P c s ∨ c ∈ new → P c s') fun _ => False

namespace Establishes

variable {x : ExceptT ε (StateM σ) α} {f : α → ExceptT ε (StateM σ) β}

theorem pure (a : α) : Establishes I P ∅ (Pure.pure a : ExceptT ε (StateM σ) α) :=
  fun _ hs => ⟨hs, fun _ h => h.resolve_right id⟩

theorem mono (h : Establishes I P new x) (hsub : new' ⊆ new) : Establishes I P new' x :=
  fun s hs => (h s hs).imp
    (fun _ _ hs' => ⟨hs'.1, fun c hc => hs'.2 c (hc.imp_right fun hmem => hsub hmem)⟩) fun _ => id

theorem bind (hx : Establishes I P new x) (hf : ∀ a, Establishes I P new' (f a)) :
    Establishes I P (new ∪ new') (x >>= f) := by
  intro s hs
  rw [ends_bind]
  refine (hx s hs).imp (fun a s₁ hs₁ => ?_) fun _ => id
  refine (hf a s₁ hs₁.1).imp (fun b s₂ hs₂ => ⟨hs₂.1, fun c hc => hs₂.2 c ?_⟩) fun _ => id
  rcases hc with hc | hc | hc
  · exact .inl (hs₁.2 c (.inl hc))
  · exact .inl (hs₁.2 c (.inr hc))
  · exact .inr hc

theorem foldlM {g : β → α → ExceptT ε (StateM σ) β} {new : α → Set γ} {xs : List α}
    (h : ∀ b, ∀ a ∈ xs, Establishes I P (new a) (g b a)) (b : β) :
    Establishes I P {c | ∃ a ∈ xs, c ∈ new a} (xs.foldlM g b) := by
  induction xs generalizing b with
  | nil => exact (pure b).mono fun c ⟨a, ha, _⟩ => (List.not_mem_nil ha).elim
  | cons a xs ih =>
      rw [List.foldlM_cons]
      refine ((h b a List.mem_cons_self).bind fun b' =>
        ih (fun b a' ha' => h b a' (List.mem_cons_of_mem a ha')) b').mono ?_
      rintro c ⟨a', ha', hc⟩
      rcases List.mem_cons.1 ha' with rfl | ha'
      · exact .inl hc
      · exact .inr ⟨a', ha', hc⟩

end Establishes

end

/-- What a name is used as it may be used as under a substitution. -/
theorem Env.Closed.uses_apply {env : Env} (h : env.Closed) {bound : String → Prop} {name : String}
    {t : Ty} (s : Subst) (huses : env.Uses bound name t) : env.Uses bound name (s.apply t) := by
  refine huses.imp_left fun ⟨scheme, hlookup, hinst⟩ => ⟨scheme, hlookup, ?_⟩
  have hclosed := h name scheme hlookup
  exact s.applyScheme_of_closed hclosed ▸ Scheme.Plain.instance_apply (.inl hclosed) s hinst

/-- What is below a block is in no other tree, if the block is plugged into none with an output. -/
theorem Shape.Wired.rooted_below {sh : Shape} (h : sh.Wired) {root : BlockId}
    (htop : ∀ {c p}, sh.Plugged root c → sh.ports c = some p → ¬ p.kind.hasOutput) :
    sh.Rooted {c | sh.Below c root} := by
  intro b c p hb hplug hp hout
  rcases Relation.ReflTransGen.cases_head hb with rfl | ⟨d, hd, hbelow⟩
  · exact (htop hplug hp hout).elim
  · exact h.plugged_unique hplug hd ▸ hbelow

/-- The block is a function of that name. -/
def Shape.Defines (sh : Shape) (b : BlockId) (name : String) : Prop :=
  ∃ p params, sh.ports b = some p ∧ p.kind = .function name params

/-- A function is plugged into nothing. -/
theorem Shape.Regular.not_plugged {sh : Shape} {loose : Set BlockId} (h : sh.Regular loose)
    {b c : BlockId} {name : String} (hb : sh.Defines b name) : ¬ sh.Plugged b c := by
  rintro ⟨s, -, -, hs, -⟩
  obtain ⟨p, params, hp, hkind⟩ := hb
  have hnone := h.function?_eq_none hp hs
  rw [hkind] at hnone
  cases hnone

/-- No block is below two that are plugged into nothing. -/
theorem Shape.Wired.eq_of_below_tops {sh : Shape} (h : sh.Wired) {b c d : BlockId}
    (hb : ∀ x, ¬ sh.Plugged b x) (hc : ∀ x, ¬ sh.Plugged c x) (hdb : sh.Below d b)
    (hdc : sh.Below d c) : b = c := by
  have hright : Relator.RightUnique sh.Plugged := fun _ _ _ => h.plugged_unique
  have hnot : ∀ {b c}, (∀ x, ¬ sh.Plugged b x) → sh.Below b c → b = c := fun htop hbelow => by
    rcases Relation.ReflTransGen.cases_head hbelow with heq | ⟨x, hx, -⟩
    · exact heq
    · exact (htop x hx).elim
  rcases Relation.ReflTransGen.total_of_right_unique hright hdb hdc with hbelow | hbelow
  · exact hnot hb hbelow
  · exact (hnot hc hbelow).symm

namespace Workspace

/-- Some block has a warning. -/
def Warned (ws : Workspace) : Prop := ∃ b, (ws.warning b).isSome

/-- There is a warning, or the types on the block fit together. -/
def Checked (uses : String → Ty → Prop) (b : BlockId) (ws : Workspace) : Prop :=
  ws.Warned ∨ ws.main.Fitted uses b

theorem not_warned {ws : Workspace} (h : ws.warnings = []) : ¬ ws.Warned := by
  rintro ⟨b, hb⟩
  obtain ⟨text, htext⟩ := Option.isSome_iff_exists.1 hb
  obtain ⟨block, hblock, htext⟩ := Option.bind_eq_some_iff.1 htext
  have hmem : (b, text) ∈ ws.warnings := List.mem_filterMap.2
    ⟨(b, block), Std.ExtTreeMap.mem_toList_iff_getElem?_eq_some.2 hblock,
      Option.map_eq_some_iff.2 ⟨text, htext, rfl⟩⟩
  rw [h] at hmem
  exact List.not_mem_nil hmem

theorem Checked.mono {ws : Workspace} {b : BlockId} {uses uses' : String → Ty → Prop}
    (h : ws.Checked uses b) (huses : ∀ name t, uses name t → uses' name t) :
    ws.Checked uses' b :=
  h.imp_right fun hfitted => ⟨fun hp hout =>
    let ⟨inputs, output, hholds, hfits⟩ := hfitted.fits hp hout
    ⟨inputs, output, hholds, hfits.imp huses⟩, hfitted.linked⟩

/-- A member is a function, lowered as it is on the canvas. -/
theorem member?_eq_some {ws : Workspace} {b : BlockId} {m : Member} :
    ws.member? b = some m ↔
      ws.main.shape.Defines b m.name ∧ m.block = b ∧ m.lowered = ws.main.lower b := by
  simp only [member?, Option.bind_eq_bind, Option.bind_eq_some_iff]
  constructor
  · rintro ⟨block, hblock, ⟨name, params⟩, hfun, heq⟩
    cases heq
    refine ⟨⟨_, params, Graph.shape_ports_eq_some.2 ⟨block, hblock, rfl⟩, ?_⟩, rfl, rfl⟩
    cases hkind : block.kind <;> rw [hkind] at hfun <;> cases hfun
    rfl
  · rintro ⟨⟨p, params, hp, hkind⟩, rfl, hlowered⟩
    obtain ⟨block, hblock, rfl⟩ := Graph.shape_ports_eq_some.1 hp
    replace hkind : block.kind = .function m.name params := hkind
    exact ⟨block, hblock, (m.name, params), by rw [hkind]; rfl, by rw [← hlowered]; rfl⟩

theorem of_mem_members {ws : Workspace} {group : List BlockId} {m : Member}
    (hm : m ∈ group.filterMap ws.member?) :
    m.block ∈ group ∧ m.lowered = ws.main.lower m.block ∧
      ws.main.shape.Defines m.block m.name := by
  obtain ⟨f, hf, hm⟩ := List.mem_filterMap.1 hm
  obtain ⟨hdefines, rfl, hlowered⟩ := member?_eq_some.1 hm
  exact ⟨hf, hlowered, hdefines⟩

/-- Members are plugged into nothing. -/
theorem rooted_members {ws : Workspace} (hsh : ws.main.shape.Regular ∅) (group : List BlockId) :
    ws.main.shape.Rooted {c | ∃ m ∈ group.filterMap ws.member?,
      ws.main.shape.Below c m.block} := by
  rintro b c q ⟨m, hm, hb⟩ hplug hq hout
  obtain ⟨-, -, hdefines⟩ := of_mem_members hm
  exact ⟨m, hm, hsh.toWired.rooted_below
    (fun hplug _ => (hsh.not_plugged hdefines hplug).elim) hb hplug hq hout⟩

/-- The canvases have these shapes, and all type variables are accounted for. -/
abbrev Sound (sh flyout : Shape) (pool : VarPool) (ws : Workspace) : Prop :=
  ws.OfShape sh flyout ∧ ws.Accounted pool

end Workspace

namespace WorkspaceM

variable {sh flyout : Shape} {pool₀ : VarPool}

theorem steady_sound (hsh : sh.Regular ∅) :
    Steady sh flyout (fun _ => True) (Sound sh flyout pool₀) where
  ofShape := And.left
  joins _ _ _ _ := trivial
  warn root e := (completes_warn root e).and (accounted_warn root e)
  clear hb := (completes_setWarning hb none).and
    (accounted_onMain fun _ => GraphM.every_updateBlock _ (fun _ => id) fun _ h => h)
  keep {ws origin types pool} hws hfinding := by
    obtain ⟨hshape, haccounted⟩ := hws
    have hground : ws.main.shape.Ground := Graph.ground_shape.2 haccounted.ground
    obtain ⟨hext, htypes⟩ := hfinding.drawn hground haccounted.distinct.keeps
      fun {s b t} _ _ (ht : ws.main.keptAt (.socket s) = some t) =>
        VarPool.own_false ▸ haccounted.main.keptAt ht
    have hkept := (Steady.of_shape hsh).keep hshape hfinding
    refine ⟨⟨hshape, haccounted.extend hext⟩, ?_⟩
    refine (hkept.2.and (accounted_annotate (haccounted.extend hext) fun tag t ht => ?_)).imp
      (fun _ _ => id) fun _ => And.left
    exact VarPool.own_false ▸ htypes ht

/-- What has been found is kept. If it fits together on a tree, so do the types that are on the
tree afterwards, and what has been checked before is so still. -/
theorem ends_keep (hsh : sh.Regular ∅) {ws : Workspace} (hws : ws.Sound sh flyout pool₀)
    {origin : BlockId → Prop} {types : Std.ExtTreeMap Tag Ty} {pool : VarPool}
    (hfinding : ws.Finding (fun _ => True) origin types pool) :
    Ends (annotate types) { ws with pool } (fun _ ws' => ws'.Sound sh flyout pool₀ ∧
      ∀ {uses tree}, (∀ name t (s : Subst), uses name t → uses name (s.apply t)) →
        sh.Typing uses tree (fun tag => types[tag]?) → sh.Rooted tree →
          ∀ b, ws.Checked uses b ∨ b ∈ tree → ws'.Checked uses b) fun _ => False := by
  have hground : ws.main.shape.Ground := Graph.ground_shape.2 hws.2.ground
  have hsound := ((steady_sound hsh).keep hws hfinding).2
  obtain ⟨⟨rfl, -⟩, -⟩ := hws.1
  have hran := @ends_annotate { ws with pool } ∅ hsh types fun {tag t} ht => by
    obtain ⟨-, -, b, -, hb⟩ := hfinding.tagged ht
    exact ⟨b, hb⟩
  refine (hsound.and hran).imp (fun _ ws' h => ⟨h.1, ?_⟩) fun _ => And.left
  obtain ⟨-, members, rfl, hmembers⟩ := h
  intro uses tree huses htyping hrooted b hb
  have hkeeps : ws.main.Keeps uses tree types members := ⟨hsh, htyping, hmembers⟩
  have hfitted : ws.main.Fitted uses b ∨ b ∈ tree →
      (ws.main.annotated types members).Fitted uses b := fun hb => by
    by_cases hmem : b ∈ tree
    · exact hkeeps.fitted_of_mem hground huses hmem
    · exact hkeeps.fitted_of_not_mem hground huses hrooted hmem (hb.resolve_right hmem)
  rcases hb with (⟨c, hc⟩ | hb) | hb
  · exact .inl ⟨c, (congrArg Option.isSome (Graph.warningAt_annotated types members)).trans hc⟩
  · exact .inr (hfitted (.inl hb))
  · exact .inr (hfitted (.inr hb))

/-- A warning is set on a block that is there. -/
theorem ends_warn {ws : Workspace} (hsh : sh.Wired) (hws : ws.Sound sh flyout pool₀)
    {root : BlockId} (hroot : sh.Live root) (e : TypeError) :
    Ends (warn root e) ws (fun _ ws' => ws'.Sound sh flyout pool₀ ∧ ws'.Warned)
      fun _ => False := by
  have hsound : Ends (warn root e) ws (fun _ => Sound sh flyout pool₀) fun _ => False :=
    (completes_warn root e).and (accounted_warn root e) ws hws
  suffices hwarned : Ends (warn root e) ws (fun _ => Warned) fun _ => False from
    (hsound.and hwarned).imp (fun _ _ => id) fun _ => And.left
  obtain ⟨⟨rfl, -⟩, -⟩ := hws.1
  have hblamed : ws.main.shape.Live (ws.blamed root e) := by
    rw [blamed]
    split
    · split
      · rename_i hcontains
        exact Graph.contains_iff.1 hcontains
      · exact hroot
    · rename_i s _
      cases hs : ws.main.sockets[s]? with
      | none => exact hroot
      | some socket => exact hsh.owner (Graph.shape_site_eq_some.2 ⟨socket, hs, rfl⟩)
    · exact hroot
  obtain ⟨p, hp⟩ := hblamed
  obtain ⟨block, hblock, -⟩ := Graph.shape_ports_eq_some.1 hp
  refine ⟨ws.blamed root e, ?_⟩
  change (((ws.main.modifyBlock (ws.blamed root e) _).blocks[ws.blamed root e]?).bind _).isSome
  rw [Graph.getElem?_modifyBlock, if_pos rfl, hblock]
  rfl

section

variable {bound : String → Prop} {env : Env} (hsh : sh.Regular ∅) (hbinders : sh.BindersIn bound)
  (henv : env.Serves bound)

include hsh hbinders henv

/-- A tree that is inferred has a warning, or its types fit together. -/
theorem ends_inferTree_checked {ws : Workspace} (hws : ws.Sound sh flyout pool₀) {root : BlockId}
    (hroot : sh.Live root)
    (htop : ∀ {c p}, sh.Plugged root c → sh.ports c = some p → ¬ p.kind.hasOutput)
    {expected : Option Ty}
    (hexpected : ∀ t ∈ expected, ∃ s, sh.guest s = some root ∧ ws.main.tyAt s = some t) :
    Ends (inferTree env root expected) ws (fun _ ws' => ws'.Sound sh flyout pool₀ ∧
      ∀ b, ws.Checked (env.Uses bound) b ∨ sh.Below b root → ws'.Checked (env.Uses bound) b)
      fun _ => False := by
  have hwarned : ∀ {ws₁ : Workspace}, ws₁.Sound sh flyout pool₀ → ∀ e,
      Ends (warn root e) ws₁ (fun _ ws' => ws'.Sound sh flyout pool₀ ∧
        ∀ b, ws.Checked (env.Uses bound) b ∨ sh.Below b root → ws'.Checked (env.Uses bound) b)
        fun _ => False := fun hws₁ e =>
    (ends_warn hsh.toWired hws₁ hroot e).imp (fun _ ws' h => ⟨h.1, fun b _ => .inl h.2⟩) fun _ => id
  have hground : sh.Ground := by
    rw [← hws.1.1.1]
    exact Graph.ground_shape.2 hws.2.ground
  have hshape := hws.1.1.1
  subst hshape
  cases hlower : ws.main.lower root with
  | error e => exact (ends_inferTree_unlowered hlower).2 (hwarned hws _)
  | ok l =>
      have hfinding : ws.Finding (fun _ => True) _ _ _ :=
        finding_inference hsh.toWired hroot hlower (fun _ => henv.closed) hexpected
      rw [ends_inferTree_iff hlower]
      rcases hrun : (l.inference env root expected).run (InferM.ofPool ws.pool) with ⟨e | s, st⟩ <;>
        rw [hrun] at hfinding
      · exact hwarned ((steady_sound hsh).keep hws hfinding).1 e
      · have htyping := Graph.typing_inference hsh hground hbinders henv hws.2.distinct hroot hlower
          hrun
        exact (ends_keep hsh hws hfinding).imp (fun _ ws' h => ⟨h.1, h.2
          (fun name t s => henv.closed.uses_apply s) htyping (hsh.toWired.rooted_below htop)⟩)
          fun _ => id

end

theorem ends_warns {ws : Workspace} (hsh : sh.Wired) (hws : ws.Sound sh flyout pool₀)
    {errors : List (BlockId × TypeError)} (hlive : ∀ error ∈ errors, sh.Live error.1) :
    Ends (errors.forM fun error => warn error.1 error.2) ws (fun _ ws' =>
      ws'.Sound sh flyout pool₀ ∧ (errors = [] ∧ ws' = ws ∨ ws'.Warned)) fun _ => False := by
  induction errors generalizing ws with
  | nil => exact ⟨hws, .inl ⟨rfl, rfl⟩⟩
  | cons error errors ih =>
      rw [List.forall_mem_cons] at hlive
      change Ends (warn error.1 error.2 >>= fun _ => errors.forM _) ws _ _
      rw [ends_bind]
      refine (ends_warn hsh hws hlive.1 error.2).imp (fun _ ws₁ h => ?_) fun _ => id
      refine (ih h.1 hlive.2).imp (fun _ ws₂ h' => ⟨h'.1, .inr ?_⟩) fun _ => id
      rcases h'.2 with ⟨-, rfl⟩ | hwarned
      · exact h.2
      · exact hwarned

/-- The functions in a group have names that the environment does not have yet. -/
structure Introduces (sh : Shape) (bound : String → Prop) (env : Env) (group : List BlockId) :
    Prop where
  nodup : group.Nodup
  fresh : ∀ f ∈ group, ∀ name, sh.Defines f name →
    ¬ bound name ∧ Prelude.env.lookup name = none ∧ env.lookup name = none

/-- The trees of two members have nothing in common. -/
theorem Introduces.pairwise_apart {ws : Workspace} {bound : String → Prop} {env : Env}
    {group : List BlockId} (hgroup : Introduces ws.main.shape bound env group)
    (hsh : ws.main.shape.Regular ∅) :
    (group.filterMap ws.member?).Pairwise fun m m' =>
      ∀ c, ws.main.shape.Below c m.block → ¬ ws.main.shape.Below c m'.block := by
  rw [List.pairwise_filterMap]
  refine hgroup.nodup.imp fun {f f'} hne m hm m' hm' c hc hc' => hne ?_
  obtain ⟨hdefines, rfl, -⟩ := member?_eq_some.1 hm
  obtain ⟨hdefines', rfl, -⟩ := member?_eq_some.1 hm'
  exact hsh.toWired.eq_of_below_tops (fun _ => hsh.not_plugged hdefines)
    (fun _ => hsh.not_plugged hdefines') hc hc'

/-- What is found for a group is kept, and there is a warning for every error. -/
theorem ends_inferGroup_kept {env : Env} (hsh : sh.Regular ∅) (henv : env.Closed)
    (group : List BlockId) {ws : Workspace} (hws : ws.Sound sh flyout pool₀) :
    let typing := ((FunctionGroup.infer env (group.filterMap ws.member?)).run
      (InferM.ofPool ws.pool)).1
    Ends (inferGroup env group) ws (fun env' ws' => ws'.Sound sh flyout pool₀ ∧
      env' = env.insertMany typing.schemes ∧ (ws'.Warned ∨ typing.errors = [] ∧
        ∀ {uses tree}, (∀ name t (s : Subst), uses name t → uses name (s.apply t)) →
          sh.Typing uses tree (fun tag => typing.types[tag]?) → sh.Rooted tree →
            ∀ b, ws.Checked uses b ∨ b ∈ tree → ws'.Checked uses b)) fun _ => False := by
  obtain ⟨⟨rfl, -⟩, -⟩ := id hws.1
  have hfinding := @finding_group ws hsh.toWired env (fun _ => henv) (fun _ => True) group trivial
  rw [inferGroup, ends_bind, ends_get, ends_bind, ends_runInference]
  dsimp only at hfinding ⊢
  rw [ends_bind]
  refine (ends_keep hsh hws hfinding).imp (fun _ ws₁ h₁ => ?_) fun _ => id
  rw [ends_bind]
  refine (ends_warns hsh.toWired h₁.1 fun error herror => ?_).imp (fun _ ws₂ h₂ => ?_) fun _ => id
  · obtain ⟨m, hm, heq⟩ := FunctionGroup.exists_member_of_mem_errors herror
    obtain ⟨-, -, p, -, hp, -⟩ := of_mem_members hm
    exact heq ▸ ⟨p, hp⟩
  · rcases h₂.2 with ⟨herrors, rfl⟩ | hwarned
    · exact ⟨h₂.1, rfl, .inr ⟨herrors, h₁.2⟩⟩
    · exact ⟨h₂.1, rfl, .inl hwarned⟩

/-- A group that is inferred has a warning, or its types fit together; its functions are bound. -/
theorem ends_inferGroup_checked {bound : String → Prop} {env : Env} (hsh : sh.Regular ∅)
    (hbinders : sh.BindersIn bound) (henv : env.Serves bound) {group : List BlockId}
    (hgroup : Introduces sh bound env group) {ws : Workspace} (hws : ws.Sound sh flyout pool₀) :
    Ends (inferGroup env group) ws (fun env' ws' => ws'.Sound sh flyout pool₀ ∧
      env'.Serves bound ∧
      (∀ name, (∀ f ∈ group, ¬ sh.Defines f name) → env'.lookup name = env.lookup name) ∧
      ∀ b, (ws.Checked (env'.Uses bound) b ∨
          ∃ f ∈ group, (∃ name, sh.Defines f name) ∧ sh.Below b f) →
        ws'.Checked (env'.Uses bound) b) fun _ => False := by
  have hground : sh.Ground := by
    rw [← hws.1.1.1]
    exact Graph.ground_shape.2 hws.2.ground
  obtain ⟨⟨rfl, -⟩, -⟩ := id hws.1
  have hclosed := FunctionGroup.closed_schemes henv.closed (group.filterMap ws.member?)
    (InferM.ofPool ws.pool)
  obtain ⟨schemes, hschemes⟩ := FunctionGroup.exists_schemes_eq env (group.filterMap ws.member?)
    (InferM.ofPool ws.pool)
  have hnames : ∀ m ∈ group.filterMap ws.member?,
      ¬ bound m.name ∧ Prelude.env.lookup m.name = none := by
    intro m hm
    obtain ⟨hf, -, hdefines⟩ := of_mem_members hm
    obtain ⟨hfree, hnew, -⟩ := hgroup.fresh _ hf _ hdefines
    exact ⟨hfree, hnew⟩
  have henv' : (env.insertMany ((FunctionGroup.infer env (group.filterMap ws.member?)).run
      (InferM.ofPool ws.pool)).1.schemes).Serves bound := by
    rw [hschemes] at hclosed ⊢
    exact FunctionGroup.serves_bindAll henv hnames hclosed
  refine (ends_inferGroup_kept hsh henv.closed group hws).imp (fun env' ws' h => ?_) fun _ => id
  obtain ⟨hws', rfl, hkept⟩ := h
  refine ⟨hws', henv', fun name hname => ?_, fun b hb => ?_⟩
  · rw [hschemes]
    refine Env.lookup_insertMany_of_not_mem fun hmem => ?_
    obtain ⟨binding, hbinding, rfl⟩ := List.mem_map.1 hmem
    obtain ⟨m, hm, heq⟩ := List.mem_map.1 (List.of_mem_zip hbinding).1
    obtain ⟨hf, -, hdefines⟩ := of_mem_members hm
    exact hname _ hf (heq ▸ hdefines)
  · rcases hkept with hwarned | ⟨herrors, hkept⟩
    · exact .inl hwarned
    · refine hkept (fun name t s => henv'.closed.uses_apply s) ?_ (rooted_members hsh group) b
        (hb.imp_right fun h => ?_)
      · refine FunctionGroup.typing_infer hsh hground hbinders henv (fun m hm => ?_)
          (hgroup.pairwise_apart hsh) hnames hws.2.distinct herrors
        obtain ⟨-, hlowered, p, -, hp, -⟩ := of_mem_members hm
        exact ⟨hlowered, p, hp⟩
      · obtain ⟨f, hf, ⟨name, hdefines⟩, hbelow⟩ := h
        have hm : ws.member? f = some ⟨f, name, ws.main.lower f⟩ :=
          member?_eq_some.2 ⟨hdefines, rfl, rfl⟩
        exact ⟨_, List.mem_filterMap.2 ⟨f, hf, hm⟩, hbelow⟩

end WorkspaceM

end Plugboard
