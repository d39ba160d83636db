import Plugboard.Proofs.Parting
import Plugboard.Proofs.SameShape

/-!
# Inference is local

What is inferred for a tree, and what it is kept as, depends on the shape of the canvas, on the
names that are handed out and on the types that are plugged together with the tree. No other types
change.
-/

namespace Plugboard

open Shape

namespace Graph

variable {g g' : Graph} {b c : BlockId} {place : Place} {types : Std.ExtTreeMap Tag Ty}
  {members : BlockSet} {loose K : Set BlockId}

theorem SameShape.ownPlaces_eq (h : g.SameShape g') : g'.ownPlaces = g.ownPlaces := by
  funext types
  rw [ownPlaces, ownPlaces]
  refine List.flatMap_congr fun entry _ => ?_
  rw [placesOf, placesOf, h.places_eq]

theorem SameShape.placed_eq (h : g.SameShape g') : g'.placed = g.placed := by
  funext types members
  rw [placed, placed, h.ownPlaces_eq, h.followers_eq]

/-- The types are those of tags on blocks in `K`. -/
def TagsOn (g : Graph) (K : Set BlockId) (types : Std.ExtTreeMap Tag Ty) : Prop :=
  ∀ ⦃tag : Tag⦄ ⦃t : Ty⦄, types[tag]? = some t → ∃ b ∈ K, g.shape.Tagged b tag

/-- A link joins blocks of one component. -/
theorem connected_of_link (h : g.shape.Linked) {output input : SocketId} {slot : String}
    (hsite : g.shape.site input = some (c, .input slot))
    (hpeer : g.shape.peer input = some output) (hb : g.shape.Hosts b (.socket output)) :
    g.shape.Connected b c := by
  obtain ⟨role, hb⟩ := hb
  have hguest : g.shape.guest input = some b := by
    rw [guest, hpeer, Option.bind_some, hb]
    rfl
  obtain ⟨d, ⟨role', hd⟩, hconn⟩ := h.connected_of_guest hguest
  rw [hsite] at hd
  cases hd
  exact hconn

theorem hosts_ownPlaces (hsh : g.shape.Regular loose) (htags : g.TagsOn K types) {p : Place × Ty}
    (hp : p ∈ g.ownPlaces types) :
    ∃ b ∈ K, g.shape.Hosts b p.1 := by
  obtain ⟨entry, hentry, hp⟩ := List.mem_flatMap.1 hp
  obtain ⟨b, hb, htag⟩ := htags (Std.ExtTreeMap.mem_toList_iff_getElem?_eq_some.1 hentry)
  exact ⟨b, hb, (exists_places_eq hsh htag _).2 p hp⟩

variable (hsh : g.shape.Regular loose) (hK : g.shape.Closed K) (htags : g.TagsOn K types)

include hsh hK htags

theorem hosts_placed {p : Place × Ty} (hp : p ∈ g.placed types members) :
    ∃ b ∈ K, g.shape.Hosts b p.1 := by
  rcases List.mem_append.1 hp with hp | hp
  · exact hosts_ownPlaces hsh htags hp
  · obtain ⟨output, input, c, slot, hplace, hput, -, hsite, hpeer⟩ := exists_of_mem_followers hp
    obtain ⟨b, hb, hhosts⟩ := hosts_ownPlaces hsh htags hput
    exact ⟨c, (hK (connected_of_link hsh.toLinked hsite hpeer hhosts)).1 hb, hplace ▸ ⟨_, hsite⟩⟩

/-- What is kept at a place: the last of the new types for it, or else the old one, brought into
agreement with the new ones around it. -/
theorem keptAt_annotated (hb : g.shape.Hosts b place) :
    (g.annotated types members).keptAt place =
      (settledAt (g.agreed (g.placed types members)) (g.placed types members)).foldl
        (fun kept p => if p.1 = place then some p.2 else kept)
        (if b ∈ members then (g.keptAt place).map (g.agreed (g.placed types members)).apply
          else g.keptAt place) := by
  rw [annotated, keptAt_keepAll, keptAt_applyTo hb]
  intro q hq
  obtain ⟨p, hp, rfl⟩ := List.mem_map.1 hq
  obtain ⟨c, -, hc⟩ := hosts_placed hsh hK htags hp
  exact ⟨c, (shape_applyTo (g := g) _ members).symm ▸ hc⟩

/-- Nothing is kept elsewhere. -/
theorem keptAt_annotated_of_not_mem (hmembers : ∀ c ∈ members, c ∈ K) (hnot : b ∉ K)
    (hb : g.shape.Hosts b place) : (g.annotated types members).keptAt place = g.keptAt place := by
  rw [keptAt_annotated hsh hK htags hb, if_neg fun hmem => hnot (hmembers b hmem)]
  refine foldl_kept_of_forall_ne fun q hq heq => ?_
  obtain ⟨p, hp, rfl⟩ := List.mem_map.1 hq
  obtain ⟨c, hc, hhosts⟩ := hosts_placed hsh hK htags hp
  have hsame : p.1 = place := heq
  rw [hsame] at hhosts
  exact hnot (hhosts.unique hb ▸ hc)

/-- Canvases of one shape that agree where types are kept will agree there again. -/
theorem keptAt_annotated_congr (hshape : g'.shape = g.shape)
    (hagree : ∀ {b place}, b ∈ K → g.shape.Hosts b place → g'.keptAt place = g.keptAt place)
    (hmem : b ∈ K) (hb : g.shape.Hosts b place) :
    (g'.annotated types members).keptAt place = (g.annotated types members).keptAt place := by
  have htags' : g'.TagsOn K types := fun tag t ht => by
    rw [hshape]
    exact htags ht
  have hsh' : g'.shape.Regular loose := hshape.symm ▸ hsh
  have hplaced := congrFun₂ (SameShape.of_shape_eq hshape).placed_eq types members
  have hagreed : g'.agreed (g'.placed types members) = g.agreed (g.placed types members) := by
    rw [hplaced, agreed, agreed]
    refine List.foldl_ext _ _ _ fun s p hp => ?_
    obtain ⟨c, hc, hhosts⟩ := hosts_placed hsh hK htags hp
    rw [hagree hc hhosts]
  rw [keptAt_annotated hsh' (hshape.symm ▸ hK) htags' (hshape.symm ▸ hb),
    keptAt_annotated hsh hK htags hb, hagreed, hplaced, hagree hmem hb]

omit hsh hK htags in
/-- A warning is set on a block that is there. -/
theorem isSome_warningAt_modifyBlock (g : Graph) (c : BlockId) (text : String) (b : BlockId) :
    ((g.modifyBlock c fun block => { block with warning := some text }).warningAt b).isSome ↔
      (g.warningAt b).isSome ∨ c = b ∧ g.shape.Live b := by
  rw [warningAt, warningAt, getElem?_modifyBlock]
  split
  · rename_i hsame
    cases hblock : g.blocks[b]? with
    | none => simp [shape, hblock]
    | some block =>
        have hlive : g.shape.Live b := ⟨_, shape_ports_eq_some.2 ⟨block, hblock, rfl⟩⟩
        simp [hsame, hlive]
  · rename_i hne
    simp [hne]

end Graph

namespace Workspace

/-- Two runs side by side. Their types are the same on the blocks in `K`, and have not changed on
others since the runs started; the same blocks have got a warning in both. -/
structure Twins (sh : Shape) (K : Set BlockId) (old old' ws ws' : Workspace) : Prop where
  shape : ws.main.shape = sh
  shape' : ws'.main.shape = sh
  pool : ws'.pool = ws.pool
  inside : ∀ {b place}, b ∈ K → sh.Hosts b place → ws'.main.keptAt place = ws.main.keptAt place
  outside : ∀ {b place}, b ∉ K → sh.Hosts b place →
    ws.main.keptAt place = old.main.keptAt place
  outside' : ∀ {b place}, b ∉ K → sh.Hosts b place →
    ws'.main.keptAt place = old'.main.keptAt place
  flyout : ws.flyout = old.flyout
  flyout' : ws'.flyout = old'.flyout
  warned : ∃ new : BlockId → Prop, ∀ b,
    ((ws.main.warningAt b).isSome ↔ (old.main.warningAt b).isSome ∨ new b) ∧
      ((ws'.main.warningAt b).isSome ↔ (old'.main.warningAt b).isSome ∨ new b)

namespace Twins

variable {sh : Shape} {K : Set BlockId} {old old' ws ws' : Workspace}

theorem of_agree (hshape : ws.main.shape = sh) (hshape' : ws'.main.shape = sh)
    (hpool : ws'.pool = ws.pool) (hagree : ∀ {b place}, b ∈ K → sh.Hosts b place →
      ws'.main.keptAt place = ws.main.keptAt place) : Twins sh K ws ws' ws ws' :=
  ⟨hshape, hshape', hpool, hagree, fun _ _ => rfl, fun _ _ => rfl, rfl, rfl,
    fun _ => False, fun _ => by simp⟩

/-- A run beside itself. -/
theorem self (hshape : ws.main.shape = sh) (K : Set BlockId) : Twins sh K ws ws ws ws :=
  of_agree hshape hshape rfl fun _ _ => rfl

theorem sameShape (h : Twins sh K old old' ws ws') : ws.main.SameShape ws'.main :=
  .of_shape_eq (h.shape'.trans h.shape.symm)

theorem setPool (h : Twins sh K old old' ws ws') (pool : VarPool) :
    Twins sh K old old' { ws with pool } { ws' with pool } :=
  ⟨h.shape, h.shape', rfl, h.inside, h.outside, h.outside', h.flyout, h.flyout', h.warned⟩

/-- A warning on a block that is there. -/
theorem warn (h : Twins sh K old old' ws ws') (root : BlockId) (e : TypeError) :
    Twins sh K old old' (ws.warn root e) (ws'.warn root e) := by
  obtain ⟨new, hnew⟩ := h.warned
  let b := ws.blamed root e
  let text := ws.settings.warning ++ ": " ++ e.message
  let text' := ws'.settings.warning ++ ": " ++ e.message
  have hkept : ∀ (g : Graph) (text : String) place,
      (g.modifyBlock b fun block => { block with warning := some text }).keptAt place =
        g.keptAt place := fun g _ => Graph.keptAt_modifyBlock (fun _ => by rfl) b
  have hshape : ∀ (g : Graph) (text : String),
      (g.modifyBlock b fun block => { block with warning := some text }).shape = g.shape :=
    fun _ _ => Graph.shape_modifyBlock fun _ => ⟨rfl, rfl, rfl⟩
  rw [Workspace.warn, Workspace.warn, Workspace.blamed_eq h.sameShape root rfl]
  refine ⟨(hshape _ text).trans h.shape, (hshape _ text').trans h.shape', h.pool, ?_, ?_, ?_,
    h.flyout, h.flyout', fun c => new c ∨ b = c ∧ sh.Live c, fun c => ?_⟩
  · intro c place hc hhosts
    exact ((hkept _ text' place).trans (h.inside hc hhosts)).trans (hkept _ text place).symm
  · intro c place hc hhosts
    exact (hkept _ text place).trans (h.outside hc hhosts)
  · intro c place hc hhosts
    exact (hkept _ text' place).trans (h.outside' hc hhosts)
  · have hwarned := Graph.isSome_warningAt_modifyBlock ws.main b text c
    have hwarned' := Graph.isSome_warningAt_modifyBlock ws'.main b text' c
    rw [h.shape] at hwarned
    rw [h.shape'] at hwarned'
    exact ⟨hwarned.trans ((or_congr_left (hnew c).1).trans or_assoc),
      hwarned'.trans ((or_congr_left (hnew c).2).trans or_assoc)⟩

end Twins

end Workspace

namespace WorkspaceM

open Workspace

/-- The same answers, and what `Twins` says of the workspaces. -/
abbrev Together {α : Type} (sh : Shape) (K : Set BlockId) (old old' : Workspace)
    (x : WorkspaceM α) : Prop :=
  Parallel (W := PUnit) (fun _ => Twins sh K old old') (fun _ => Eq) ⟨⟩ x x fun _ => Eq

variable {α : Type} {sh : Shape} {K : Set BlockId} {old old' : Workspace} {env : Env}

theorem together_query {f : Workspace → Except Fault α}
    (h : ∀ ws ws', Twins sh K old old' ws ws' → f ws' = f ws) :
    Parallel (W := PUnit) (fun _ => Twins sh K old old') (fun _ => Eq) ⟨⟩ (query f) (query f)
      fun _ a a' => a = a' ∧ ∃ ws : Workspace, ws.main.shape = sh ∧ f ws = .ok a := by
  refine Parallel.get.bind fun _ ws ws' _ hws => ?_
  rw [h ws ws' hws]
  cases hrun : f ws with
  | ok a => exact .pure ⟨rfl, ws, hws.shape, hrun⟩
  | error e => exact .throw rfl

theorem together_warn (root : BlockId) (e : TypeError) :
    Together sh K old old' (warn root e) :=
  .modify (fun _ _ hws => hws.warn root e) rfl

/-- An inference finds the same in both runs, for the same names are handed out. -/
theorem together_runInference (action : StateM InferState α) :
    Parallel (W := PUnit) (fun _ => Twins sh K old old') (fun _ => Eq) ⟨⟩
      (runInference action) (runInference action) fun _ out out' => out = out' ∧
        ∃ pool, out = ((action.run (InferM.ofPool pool)).1,
          (action.run (InferM.ofPool pool)).2.notes) := by
  refine .modifyGet fun ws ws' hws => ⟨⟨⟩, le_rfl, ?_⟩
  rw [hws.pool]
  exact ⟨⟨rfl, ws.pool, rfl⟩, hws.setPool _⟩

variable (hsh : sh.Regular ∅) (hK : sh.Closed K)

include hsh hK

theorem together_annotate {types : Std.ExtTreeMap Tag Ty}
    (htags : ∀ {tag : Tag} {t : Ty}, types[tag]? = some t → ∃ b ∈ K, sh.Tagged b tag) :
    Together sh K old old' (annotate types) := by
  intro ws ws' hws
  have hshape := hws.shape
  subst hshape
  have htagsOn : ws.main.TagsOn K types := fun tag t ht => htags ht
  have hends := @ends_annotate ws ∅ hsh types fun ht => (htagsOn ht).imp fun _ => And.right
  have hends' := @ends_annotate ws' ∅ (hws.shape'.symm ▸ hsh) types fun ht => by
    rw [hws.shape']
    exact (htagsOn ht).imp fun _ => And.right
  obtain ⟨_, _, hrun, members, rfl, hmem⟩ := hends.exists_run
  obtain ⟨_, _, hrun', members', rfl, hmem'⟩ := hends'.exists_run
  rw [show StateT.run (ExceptT.run (annotate types)) ws = _ from hrun,
    show StateT.run (ExceptT.run (annotate types)) ws' = _ from hrun']
  have hmembers : members' = members := by
    refine Std.ExtTreeSet.ext_mem fun c => ?_
    rw [hmem, hmem', hws.sameShape.ownPlaces_eq, hws.shape']
  subst hmembers
  have hwithin : ∀ c ∈ members', c ∈ K := by
    intro c hc
    obtain ⟨p, hp, b, hb, hbc⟩ := (hmem c).1 hc
    obtain ⟨d, hd, hhosts⟩ := Graph.hosts_ownPlaces hsh htagsOn hp
    exact (hK hbc).1 (hb.unique hhosts ▸ hd)
  have htagsOn' : ws'.main.TagsOn K types := fun tag t ht => by
    rw [hws.shape']
    exact htags ht
  have hsh' := hws.shape'.symm ▸ hsh
  have hK' : ws'.main.shape.Closed K := by
    rw [hws.shape']
    exact hK
  refine ⟨⟨⟩, le_rfl, .ok rfl, ?_⟩
  refine ⟨Graph.shape_annotated _ _, (Graph.shape_annotated _ _).trans hws.shape', hws.pool, ?_, ?_,
    ?_, hws.flyout, hws.flyout', ?_⟩
  · intro b place hb hhosts
    exact Graph.keptAt_annotated_congr hsh hK htagsOn hws.shape' hws.inside hb hhosts
  · intro b place hb hhosts
    exact (Graph.keptAt_annotated_of_not_mem hsh hK htagsOn hwithin hb hhosts).trans
      (hws.outside hb hhosts)
  · intro b place hb hhosts
    exact (Graph.keptAt_annotated_of_not_mem hsh' hK' htagsOn' hwithin hb
      (hws.shape'.symm ▸ hhosts)).trans (hws.outside' hb hhosts)
  · obtain ⟨new, hnew⟩ := hws.warned
    refine ⟨new, fun b => ?_⟩
    have hwarned : ∀ g : Graph, (g.annotated types members').warningAt b = g.warningAt b :=
      fun _ => Graph.warningAt_annotated types members'
    exact ⟨(congrArg (·.isSome = true) (hwarned ws.main)).to_iff.trans (hnew b).1,
      (congrArg (·.isSome = true) (hwarned ws'.main)).to_iff.trans (hnew b).2⟩

/-- Types that are around blocks in `K` are kept on blocks in `K`. -/
theorem together_annotate_around {origin : BlockId → Prop} (horigin : ∀ b, origin b → b ∈ K)
    {types : Std.ExtTreeMap Tag Ty}
    (htags : ∀ {tag : Tag} {t : Ty}, types[tag]? = some t → sh.Around origin tag) :
    Together sh K old old' (annotate types) :=
  together_annotate hsh hK fun ht => by
    obtain ⟨root, hroot, b, hconn, hb⟩ := htags ht
    exact ⟨b, (hK hconn).1 (horigin root hroot), hb⟩

theorem together_inferGroup (env : Env) (group : List BlockId)
    (hfun : ∀ b p, sh.ports b = some p → p.kind.function?.isSome → b ∈ K) :
    Together sh K old old' (inferGroup env group) := by
  refine Parallel.get.bind fun _ ws ws' _ hws => ?_
  rw [Workspace.member?_eq hws.sameShape]
  refine (together_runInference _).bind fun _ out out' _ hout => ?_
  obtain ⟨rfl, pool, rfl⟩ := hout
  have hshape := hws.shape
  subst hshape
  have htypes := @around_of_infer_group { ws with pool } hsh.toWired env group
  refine (together_annotate_around hsh hK (fun b hb => ?_) htypes).bind fun _ _ _ _ _ => ?_
  · obtain ⟨m, hm⟩ := Option.isSome_iff_exists.1 hb.2
    obtain ⟨block, hblock, f, hf, -⟩ := by
      simpa only [member?, Option.bind_eq_bind, Option.bind_eq_some_iff] using hm
    exact hfun b _ (Graph.shape_ports_eq_some.2 ⟨block, hblock, rfl⟩) (by rw [hf]; rfl)
  · refine Parallel.bind (.forM_eq fun _ entry _ => together_warn entry.1 entry.2)
      fun _ _ _ _ _ => .pure rfl

theorem together_globalEnv (hfun : ∀ b p, sh.ports b = some p → p.kind.function?.isSome → b ∈ K) :
    Together sh K old old' globalEnv := by
  refine (together_query fun ws ws' hws => Workspace.callGraph_eq hws.sameShape).bind
    fun _ calls _ _ h => ?_
  obtain ⟨rfl, -⟩ := h
  refine Parallel.get.bind fun _ ws ws' _ hws => ?_
  rw [Workspace.declaredEnv_eq hws.sameShape]
  refine .foldlM (A := Eq) (Q := fun _ => Eq) (List.forall₂_refl _) ?_ rfl
  rintro _ group _ env _ _ rfl rfl
  exact together_inferGroup hsh hK env group hfun

theorem together_inferTree (env : Env) {root : BlockId} (hroot : sh.Live root) (hmem : root ∈ K)
    (expected : Option Ty) : Together sh K old old' (inferTree env root expected) := by
  rw [inferTree_eq_inferLowered]
  refine Parallel.get.bind fun _ ws ws' _ hws => ?_
  rw [hws.sameShape.lower_eq]
  cases hlower : ws.main.lower root with
  | error e => exact together_warn root _
  | ok l =>
      have hshape := hws.shape
      subst hshape
      refine (together_runInference (l.inference env root expected)).bind
        fun _ out out' _ hout => ?_
      obtain ⟨rfl, pool, rfl⟩ := hout
      have htypes := @around_of_typesOf { ws with pool } hsh.toWired root hroot l hlower
        (l.inference env root expected) fun hl =>
          l.preserves_inference (InferState.stable_tagsIn _) hl root expected
      dsimp only at htypes ⊢
      rcases hrun : (l.inference env root expected).run (InferM.ofPool pool) with ⟨e | s, st⟩ <;>
        rw [show StateT.run (l.inference env root expected) _ = _ from hrun] <;>
        rw [hrun] at htypes
      · exact together_warn root e
      · refine together_annotate_around hsh hK (fun b hb => ?_) htypes
        exact hb ▸ hmem

theorem together_inferSlot (env : Env) {input : SocketId} {b : BlockId} {role : Role}
    (hinput : sh.site input = some (b, role)) (hmem : b ∈ K) :
    Together sh K old old' (inferSlot env input) := by
  have hplugged := together_query (K := K) (f := fun ws => ws.main.pluggedBlock input)
    fun ws ws' (hws : Twins sh K old old' ws ws') => by rw [hws.sameShape.pluggedBlock_eq]
  refine hplugged.bind fun _ child? _ _ h => ?_
  obtain ⟨rfl, ws, hshape, hchild⟩ := h
  subst hshape
  rw [Graph.pluggedBlock_eq hsh.toWired hinput, Except.ok.injEq] at hchild
  cases child? with
  | none => exact .pure rfl
  | some child =>
      have hconn : ws.main.shape.Connected child b := by
        obtain ⟨c, ⟨role', hc⟩, hconn⟩ := hsh.toLinked.connected_of_guest hchild
        cases hinput.symm.trans hc
        exact hconn
      refine (together_query fun ws₁ ws₁' hws₁ => ?_).bind fun _ expected _ _ h => ?_
      · have hty : ∀ g : Graph, g.shape = ws.main.shape →
            g.socketTy input = .ok (g.keptAt (.socket input)) := fun g hg =>
          Graph.placeTy_eq (show g.shape.Hosts b (.socket input) from hg.symm ▸ ⟨role, hinput⟩)
        have hkept : ws₁'.main.keptAt (.socket input) = ws₁.main.keptAt (.socket input) :=
          hws₁.inside hmem (show ws.main.shape.Hosts b (.socket input) from ⟨role, hinput⟩)
        dsimp only
        rw [hty _ hws₁.shape, hty _ hws₁.shape', hkept]
      · obtain ⟨rfl, -⟩ := h
        exact (together_inferTree hsh hK env (hsh.toWired.live_of_guest hchild)
          ((hK hconn).2 hmem) expected).bind fun _ _ _ _ _ => .pure rfl

omit hsh hK in
theorem together_total {action : α → WorkspaceM Nat} {xs : List α}
    (h : ∀ x ∈ xs, Together sh K old old' (action x)) :
    Together sh K old old' (total action xs) := by
  refine .foldlM (A := fun x x' => x = x' ∧ x ∈ xs) (Q := fun _ => Eq)
    (List.forall₂_same.2 fun x hx => ⟨rfl, hx⟩) ?_ rfl
  rintro _ x _ sum _ _ ⟨rfl, hx⟩ rfl
  exact (h x hx).bind fun _ _ _ _ h => .pure (by rw [h])

theorem together_inferRoot (env : Env) {root : BlockId} (hroot : sh.Live root) (hmem : root ∈ K) :
    Together sh K old old' (inferRoot env root) := by
  have hblock : Parallel (W := PUnit) (fun _ => Twins sh K old old') (fun _ => Eq) ⟨⟩
      (ask (·.block root)) (ask (·.block root)) fun _ x x' =>
        sh.ports root = some ⟨x.kind, x.output, x.inputs⟩ ∧ x.SamePorts x' := by
    refine Parallel.get.bind fun _ ws ws' _ hws => ?_
    have hx := hws.sameShape.block root
    obtain ⟨p, hp⟩ := hws.shape.symm ▸ hroot
    obtain ⟨block, hblock, -⟩ := Graph.shape_ports_eq_some.1 hp
    dsimp only
    rw [Graph.block_eq_ok.2 hblock] at hx ⊢
    generalize ws'.main.block root = x' at hx ⊢
    cases hx with
    | ok hx =>
        refine .pure ⟨?_, hx⟩
        rw [← hws.shape]
        exact Graph.shape_ports_eq_some.2 ⟨block, hblock, rfl⟩
  refine hblock.bind fun _ x x' _ hx => ?_
  obtain ⟨hports, hx⟩ := hx
  rw [hx.kind, hx.inputs]
  split
  · exact .pure rfl
  · exact .pure rfl
  · refine together_total fun input hinput => ?_
    obtain ⟨slot, hsite⟩ := (hsh.lists hports).input hinput
    exact together_inferSlot hsh hK env hsite hmem
  · exact (together_inferTree hsh hK env hroot hmem none).bind fun _ _ _ _ _ => .pure rfl

end WorkspaceM

end Plugboard
