import Plugboard.Proofs.Keeping
import Plugboard.Proofs.NotedTags
import Plugboard.Proofs.ShapeKept

/-!
# Inference completes

What is inferred may be in error, but inference itself never fails where the canvases are regular:
all blocks that it asks for are there, for the tags that it leaves behind are those of blocks
plugged together with the ones it has started from. What it does to a workspace is to keep such
findings, one after the other, and to set warnings.
-/

namespace Plugboard

open Shape Workspace

namespace Shape

variable {sh : Shape} {b c : BlockId}

/-- The tag is that of a block that is plugged together with one of `origin`, or of a socket on
such a block. -/
def Around (sh : Shape) (origin : BlockId → Prop) (tag : Tag) : Prop :=
  ∃ root, origin root ∧ ∃ b, sh.Connected root b ∧ sh.Tagged b tag

/-- All kinds are ground. -/
def Ground (sh : Shape) : Prop := ∀ {b : BlockId} {p : Ports}, sh.ports b = some p → p.kind.Ground

/-- The block is there. -/
abbrev Live (sh : Shape) (b : BlockId) : Prop := ∃ p, sh.ports b = some p

theorem Live.around (h : sh.Live b) {origin : BlockId → Prop} (hb : origin b) :
    sh.Around origin (.block b) :=
  ⟨b, hb, b, .refl, rfl, h⟩

theorem Wired.live_of_guest (h : sh.Wired) {s : SocketId} (hb : sh.guest s = some b) :
    sh.Live b := by
  obtain ⟨d, role, -, hsite⟩ := guest_eq_some.1 hb
  exact h.owner hsite

theorem Connected.symm (h : sh.Connected b c) : sh.Connected c b := by
  induction h with
  | refl => exact .refl
  | tail _ hstep ih => exact ih.head hstep.symm

theorem Below.connected (h : sh.Below b c) : sh.Connected b c :=
  Relation.ReflTransGen.mono (fun _ _ => Or.inr) b c h

end Shape

namespace Graph

variable {g : Graph} {b : BlockId}

theorem ground_shape : g.shape.Ground ↔ g.Ground := by
  refine ⟨fun h {b block} hb => h (shape_ports_eq_some.2 ⟨block, hb, rfl⟩), fun h b p hp => ?_⟩
  obtain ⟨block, hblock, rfl⟩ := shape_ports_eq_some.1 hp
  exact h hblock

/-- What is plugged into a block is plugged together with all that the block is. -/
theorem marksBelow_around (h : g.shape.Wired) (origin : BlockId → Prop) :
    g.MarksBelow (g.shape.Around origin) := by
  intro b slot s hb hs
  obtain ⟨root, horigin, _, hconn, rfl, p, hp⟩ := hb
  have hsite := (inputNamed_eq_ok h hp).1 hs
  refine ⟨fun _ => ⟨root, horigin, b, hconn, _, hsite⟩, fun c hc => ?_⟩
  rw [pluggedBlock_eq h hsite, Except.ok.injEq] at hc
  exact ⟨root, horigin, c, hconn.tail (.inl (h.plugged_of_guest hsite hc)), rfl,
    h.live_of_guest hc⟩

theorem around_of_lower (h : g.shape.Wired) {origin : BlockId → Prop} (horigin : origin b)
    (hb : g.shape.Live b) {l : Lowered} (hl : g.lower b = .ok l) :
    l.term.TagsIn (g.shape.Around origin) :=
  tagsIn_lower (marksBelow_around h origin) (hb.around horigin) hl

theorem live_of_isTop (h : g.isTop b) : g.shape.Live b := by
  rw [isTop] at h
  cases hblock : g.blocks[b]? with
  | some block => exact ⟨_, shape_ports_eq_some.2 ⟨block, hblock, rfl⟩⟩
  | none =>
      rw [parent, Graph.block, hblock] at h
      cases h

theorem not_plugged_of_isTop {g : Graph} (h : g.shape.Wired) {b : BlockId} (hb : g.isTop b)
    (c : BlockId) : ¬ g.shape.Plugged b c := by
  intro hplug
  obtain ⟨p, hp⟩ := live_of_isTop hb
  rw [isTop, (parent_eq_some h hp).2 hplug] at hb
  cases hb

end Graph

namespace Workspace

variable {ws : Workspace}

/-- The canvases have these shapes, and every socket on them has a type. -/
abbrev OfShape (sh flyout : Shape) : Workspace → Prop :=
  Shaped fun main flyout' => main = sh ∧ flyout' = flyout

theorem block_of_mem_functions {f : BlockId × String × List String} (h : f ∈ ws.functions) :
    ∃ block, ws.main.blocks[f.1]? = some block ∧ block.kind = .function f.2.1 f.2.2 := by
  simp only [functions, List.mem_filterMap, Prod.exists, Option.map_eq_some_iff] at h
  obtain ⟨b, block, hblock, name, params, hf, rfl⟩ := h
  refine ⟨block, Std.ExtTreeMap.mem_toList_iff_getElem?_eq_some.1 hblock, ?_⟩
  cases hkind : block.kind <;> rw [hkind] at hf <;> cases hf
  rfl

theorem live_of_mem_functions {f : BlockId × String × List String} (h : f ∈ ws.functions) :
    ws.main.shape.Live f.1 := by
  obtain ⟨block, hblock, -⟩ := block_of_mem_functions h
  exact ⟨_, Graph.shape_ports_eq_some.2 ⟨block, hblock, rfl⟩⟩

theorem live_of_functionTable {name : String} {b : BlockId}
    (h : ws.functionTable[name]? = some b) : ws.main.shape.Live b := by
  rw [functionTable] at h
  suffices hfold : ∀ (fs : List (BlockId × String × List String))
      (table : Std.ExtTreeMap String BlockId), (∀ f ∈ fs, ws.main.shape.Live f.1) →
      (∀ (name : String) b, table[name]? = some b → ws.main.shape.Live b) →
      ∀ (name : String) b, (fs.foldl (fun table f => table.insertIfNew f.2.1 f.1) table)[name]? =
        some b → ws.main.shape.Live b from
    hfold ws.functions ∅ (fun _ => live_of_mem_functions) (by simp) name b h
  intro fs
  induction fs with
  | nil => exact fun table _ htable => htable
  | cons f fs ih =>
      intro table hfs htable
      rw [List.forall_mem_cons] at hfs
      refine ih _ hfs.2 fun name b hb => ?_
      rw [Std.ExtTreeMap.getElem?_insertIfNew] at hb
      split at hb
      · cases hb
        exact hfs.1
      · exact htable name b hb

theorem exists_callGraph_eq (h : ws.main.shape.Wired) : ∃ calls, ws.callGraph = .ok calls := by
  have hcalls : ∀ b ∈ ws.functionTable.values, ∃ calls,
      (do return (b, ← ws.calleesBelow b) : Except Fault (BlockId × BlockSet)) = .ok calls := by
    intro b hb
    obtain ⟨name, hname⟩ := mem_values_iff.1 hb
    obtain ⟨p, hp⟩ := live_of_functionTable hname
    obtain ⟨below, hbelow, -⟩ := Graph.exists_descendants_eq h hp
    rw [calleesBelow, hbelow]
    exact ⟨_, rfl⟩
  obtain ⟨calls, hrun⟩ := exists_mapM_eq hcalls
  refine ⟨⟨.ofList calls⟩, ?_⟩
  rw [callGraph, hrun]
  rfl

/-- What an inference may find: types for the tags around the blocks that it has started from,
which are one block or functions that are inferred together, over names that it has allocated. -/
structure Finding (ws : Workspace) (joint : List BlockId → Prop) (origin : BlockId → Prop)
    (types : Std.ExtTreeMap Tag Ty) (pool : VarPool) : Prop where
  starts : (∃ root, origin = (· = root)) ∨ ∃ group, joint group ∧ ∀ b, origin b →
    b ∈ group ∧ ∃ p, ws.main.shape.ports b = some p ∧ p.kind.function?.isSome
  tagged : ∀ {tag : Tag} {t : Ty}, types[tag]? = some t → ws.main.shape.Around origin tag
  /-- The types that were expected may be over other names than the old ones as well. -/
  drawn : ∀ {old : String → Prop}, ws.main.shape.Ground → ws.pool.Keeps old →
    (∀ {s b t}, origin b → ws.main.shape.guest s = some b → ws.main.tyAt s = some t →
      t.Over (ws.pool.Own old)) →
    ws.pool.Extended pool ∧
      ∀ {tag : Tag} {t : Ty}, types[tag]? = some t → t.Over (pool.Own old)

/-- The tags that a group leaves behind are around its functions. -/
theorem around_of_infer_group (h : ws.main.shape.Wired) (env : Env) (group : List BlockId)
    {tag : Tag} {t : Ty}
    (ht : ((FunctionGroup.infer env (group.filterMap ws.member?)).run
      (InferM.ofPool ws.pool)).1.types[tag]? = some t) :
    ws.main.shape.Around (fun b => b ∈ group ∧ (ws.member? b).isSome) tag := by
  refine FunctionGroup.marked_of_infer (fun m hm l hl => ?_) ht
  obtain ⟨b, hb, hm⟩ := List.mem_filterMap.1 hm
  have horigin : b ∈ group ∧ (ws.member? b).isSome := ⟨hb, by rw [hm]; rfl⟩
  simp only [member?, Option.bind_eq_bind, Option.bind_eq_some_iff] at hm
  obtain ⟨block, hblock, f, -, hm⟩ := hm
  cases hm
  exact Graph.around_of_lower h horigin ⟨_, Graph.shape_ports_eq_some.2 ⟨block, hblock, rfl⟩⟩ hl

theorem finding_group (h : ws.main.shape.Wired) {env : Env}
    (henv : ws.main.shape.Ground → env.Closed) {joint : List BlockId → Prop}
    {group : List BlockId} (hgroup : joint group) :
    let r := (FunctionGroup.infer env (group.filterMap ws.member?)).run (InferM.ofPool ws.pool)
    ws.Finding joint (fun b => b ∈ group ∧ (ws.member? b).isSome) r.1.types r.2.pool where
  starts := by
    refine .inr ⟨group, hgroup, fun b hb => ⟨hb.1, ?_⟩⟩
    obtain ⟨m, hm⟩ := Option.isSome_iff_exists.1 hb.2
    simp only [member?, Option.bind_eq_bind, Option.bind_eq_some_iff] at hm
    obtain ⟨block, hblock, f, hf, -⟩ := hm
    exact ⟨_, Graph.shape_ports_eq_some.2 ⟨block, hblock, rfl⟩, by rw [hf]; rfl⟩
  tagged := around_of_infer_group h env group
  drawn := by
    intro old hground hpool _
    have hlits : ∀ m ∈ group.filterMap ws.member?, ∀ l, m.lowered = .ok l →
        l.term.LitsGround := by
      intro m hm l hl
      obtain ⟨b, -, hm⟩ := List.mem_filterMap.1 hm
      exact litsGround_of_member? (Graph.ground_shape.1 hground) hm hl
    obtain ⟨hext, htypes⟩ := FunctionGroup.run_infer (henv hground) hlits hpool
    exact ⟨hext, htypes _ _⟩

/-- The types that the inference of a block leaves behind: none if it fails. -/
def typesOf (r : Except TypeError Subst × InferState) : Std.ExtTreeMap Tag Ty :=
  match r with
  | (.ok s, st) => InferM.resolve s st.notes
  | (.error _, _) => ∅

/-- The tags that the inference of a tree leaves behind are around its root. -/
theorem around_of_typesOf (h : ws.main.shape.Wired) {root : BlockId}
    (hroot : ws.main.shape.Live root) {l : Lowered} (hl : ws.main.lower root = .ok l)
    {inference : InferM Subst}
    (htags : ∀ {marked : Tag → Prop}, l.term.TagsIn marked →
      Preserves (InferState.TagsIn marked) inference) {tag : Tag} {t : Ty}
    (ht : (typesOf (inference.run (InferM.ofPool ws.pool)))[tag]? = some t) :
    ws.main.shape.Around (· = root) tag := by
  have hmarked : l.term.TagsIn (ws.main.shape.Around (· = root)) := by
    refine Graph.around_of_lower h ?_ hroot hl
    rfl
  have hnotes := (htags hmarked (InferM.ofPool ws.pool) fun n hn =>
    (List.not_mem_nil hn).elim).state
  rcases hrun : inference.run (InferM.ofPool ws.pool) with ⟨e | s, st⟩ <;> rw [hrun] at hnotes ht
  · simp [typesOf] at ht
  · exact InferM.marked_of_resolve hnotes ht

theorem finding_of_inference (h : ws.main.shape.Wired) {joint : List BlockId → Prop}
    {root : BlockId}
    (hroot : ws.main.shape.Live root) {l : Lowered} (hl : ws.main.lower root = .ok l)
    {inference : InferM Subst}
    (htags : ∀ {marked : Tag → Prop}, l.term.TagsIn marked →
      Preserves (InferState.TagsIn marked) inference)
    (hends : ∀ {old : String → Prop}, ws.main.shape.Ground → l.term.LitsGround →
      ws.pool.Keeps old → (∀ {s t}, ws.main.shape.guest s = some root →
        ws.main.tyAt s = some t → t.Over (ws.pool.Own old)) →
      Ends inference (InferM.ofPool ws.pool)
        (fun s st => s.Within (st.pool.Own old) ∧ (InferM.ofPool ws.pool).Continues old st)
        fun st => (InferM.ofPool ws.pool).Continues old st) :
    ws.Finding joint (· = root) (typesOf (inference.run (InferM.ofPool ws.pool)))
      (inference.run (InferM.ofPool ws.pool)).2.pool := by
  refine ⟨.inl ⟨root, rfl⟩, around_of_typesOf h hroot hl htags,
    fun {old} hground hpool hexpected => ?_⟩
  have hran := hends hground (Graph.litsGround_lower (Graph.ground_shape.1 hground) hl) hpool
    (hexpected rfl)
  unfold Ends at hran
  rcases hrun : inference.run (InferM.ofPool ws.pool) with ⟨e | s, st⟩ <;> rw [hrun] at hran
  · exact ⟨hran.pool, fun {tag t} ht => by simp [typesOf] at ht⟩
  · exact ⟨hran.2.pool, fun ht => InferM.over_of_resolve hran.1
      (hran.2.notes fun n hn => (List.not_mem_nil hn).elim) ht⟩

/-- The type that may be expected of a tree is that of the input it is plugged into. -/
theorem finding_inference (h : ws.main.shape.Wired) {joint : List BlockId → Prop} {root : BlockId}
    (hroot : ws.main.shape.Live root) {l : Lowered} (hl : ws.main.lower root = .ok l) {env : Env}
    (henv : ws.main.shape.Ground → env.Closed) {expected : Option Ty}
    (hexpected : ∀ t ∈ expected, ∃ s, ws.main.shape.guest s = some root ∧
      ws.main.tyAt s = some t) :
    let r := (l.inference env root expected).run (InferM.ofPool ws.pool)
    ws.Finding joint (· = root) (typesOf r) r.2.pool :=
  finding_of_inference h hroot hl
    (fun hl => l.preserves_inference (InferState.stable_tagsIn _) hl root expected)
    fun hground hlits hpool hold => l.ends_inference hpool (.of_closed (henv hground) _) hlits root
      fun t ht => let ⟨_, hs, hty⟩ := hexpected t ht; hold hs hty

end Workspace

namespace WorkspaceM

variable {sh flyout : Shape} {I : Workspace → Prop} {b : BlockId}

theorem ends_annotate {ws : Workspace} {loose : Set BlockId} (h : ws.main.shape.Regular loose)
    {types : Std.ExtTreeMap Tag Ty}
    (htags : ∀ {tag : Tag} {t : Ty}, types[tag]? = some t → ∃ b, ws.main.shape.Tagged b tag) :
    Ends (annotate types) ws (fun _ ws' => ∃ members,
      ws' = (ws.setGraph .main (ws.main.annotated types members)).requestRender .main members ∧
      ∀ c, c ∈ members ↔ ∃ p ∈ ws.main.ownPlaces types, ∃ b, ws.main.shape.Hosts b p.1 ∧
        ws.main.shape.Connected b c) fun _ => False := by
  rw [annotate, ends_bind, ends_onMain]
  exact (GraphM.ends_annotate h fun _ _ => htags).imp
    (fun members g hg => ⟨members, by rw [hg.1]; rfl, hg.2⟩) fun _ => id

/-- An invariant of inference on canvases of given shapes, where functions are inferred together
in groups of a given kind. -/
structure Steady (sh flyout : Shape) (joint : List BlockId → Prop) (I : Workspace → Prop) :
    Prop where
  ofShape : ∀ {ws}, I ws → ws.OfShape sh flyout
  joins : ∀ {ws calls}, I ws → ws.callGraph = .ok calls → ∀ group ∈ calls.groups, joint group
  warn : ∀ root e, Completes I (warn root e)
  clear : ∀ {b}, sh.Live b → Completes I (onMain (GraphM.setWarning b none))
  keep : ∀ {ws origin types pool}, I ws → ws.Finding joint origin types pool →
    I { ws with pool } ∧ Ends (annotate types) { ws with pool } (fun _ => I) fun _ => False

theorem completes_total {α : Type} {action : α → WorkspaceM Nat}
    {xs : List α} (h : ∀ a ∈ xs, Completes I (action a)) : Completes I (total action xs) :=
  .foldlM _ fun _ a ha => .bind (h a ha) fun _ => .pure _

theorem completes_warn (root : BlockId) (e : TypeError) :
    Completes (OfShape sh flyout) (warn root e) :=
  .of_preserves (preserves_warn root e) fun _ _ => trivial

theorem ends_setWarning {ws : Workspace} (hb : ws.main.shape.Live b) (warning : Option String) :
    Ends (onMain (GraphM.setWarning b warning)) ws (fun _ ws' => ws' = { ws with
      main := ws.main.modifyBlock b fun block => { block with warning } }) fun _ => False := by
  obtain ⟨p, hp⟩ := hb
  obtain ⟨block, hblock, -⟩ := Graph.shape_ports_eq_some.1 hp
  rw [ends_onMain, GraphM.setWarning, GraphM.updateBlock, ends_bind, GraphM.ends_ask,
    Graph.block_eq_ok.2 hblock]
  rfl

theorem completes_setWarning (hb : sh.Live b) (warning : Option String) :
    Completes (OfShape sh flyout) (onMain (GraphM.setWarning b warning)) := by
  refine .of_preserves (preserves_onMain fun Q =>
    GraphM.preserves_setWarning (Graph.durable_shaped Q) b warning) fun ws hws => ?_
  obtain ⟨⟨rfl, -⟩, -⟩ := hws
  exact (ends_setWarning hb warning).imp (fun _ _ _ => trivial) fun _ => id

theorem Steady.of_shape (hsh : sh.Regular ∅) :
    Steady sh flyout (fun _ => True) (OfShape sh flyout) where
  ofShape := id
  joins _ _ _ _ := trivial
  warn := completes_warn
  clear hb := completes_setWarning hb none
  keep {ws origin types pool} hws hfinding := by
    have hkept : Ends (annotate types) { ws with pool } (fun _ => OfShape sh flyout)
        (OfShape sh flyout) := preserves_annotate types _ hws
    obtain ⟨⟨rfl, rfl⟩, -⟩ := id hws
    have hran := @ends_annotate { ws with pool } ∅ hsh types fun {tag t} ht => by
      obtain ⟨-, -, b, -, hb⟩ := hfinding.tagged ht
      exact ⟨b, hb⟩
    exact ⟨hws, (hkept.and hran).imp (fun _ _ => And.left) fun _ => And.right⟩

/-- The members of sets that are all joined are those of one of them. -/
theorem mem_foldl_union {sets : List BlockSet} {c : BlockId} {acc : BlockSet} :
    c ∈ sets.foldl (· ∪ ·) acc ↔ c ∈ acc ∨ ∃ set ∈ sets, c ∈ set := by
  induction sets generalizing acc with
  | nil => simp
  | cons set sets ih =>
      rw [List.foldl_cons, ih, Std.ExtTreeSet.mem_union_iff, or_assoc]
      simp

namespace Steady

variable {joint : List BlockId → Prop} (hI : Steady sh flyout joint I) (hsh : sh.Regular ∅)

include hI hsh

theorem completes_clearWarnings {roots : List BlockId} (hroots : ∀ root ∈ roots, sh.Live root) :
    Completes I (clearWarnings roots) := by
  intro ws hws
  rw [clearWarnings, ends_bind]
  refine (Ends.mapM_all (R := fun tree => ∀ c ∈ tree, sh.Live c) (fun root hroot ws hws => ?_)
    hws).imp (fun trees ws₁ h₁ => ?_) fun _ => id
  · obtain ⟨⟨rfl, -⟩, -⟩ := hI.ofShape hws
    obtain ⟨p, hp⟩ := hroots root hroot
    obtain ⟨found, hfound, hmem⟩ := Graph.exists_component_eq hsh.toWired hp
    rw [ends_ask, hfound]
    exact ⟨fun c hc => hsh.ports_of_connected ⟨p, hp⟩ ((hmem c).1 hc), hws⟩
  obtain ⟨htrees, hws₁⟩ := h₁
  rw [ends_bind, ends_get, ends_bind]
  refine (Ends.mapM_all (R := fun body => ∀ c ∈ body, sh.Live c) (fun entry hentry ws hws => ?_)
    hws₁).imp (fun bodies ws₂ h₂ => ?_) fun _ => id
  · have hlive := live_of_mem_functions hentry
    rw [(hI.ofShape hws₁).1.1] at hlive
    obtain ⟨⟨rfl, -⟩, -⟩ := hI.ofShape hws
    obtain ⟨p, hp⟩ := id hlive
    obtain ⟨found, hfound, hmem⟩ := Graph.exists_descendants_eq hsh.toWired hp
    rw [ends_ask, hfound]
    exact ⟨fun c hc => hsh.ports_of_connected hlive ((hmem c).1 hc).connected.symm, hws⟩
  obtain ⟨hbodies, hws₂⟩ := h₂
  refine Completes.forM (fun b hb => hI.clear ?_) ws₂ hws₂
  rcases mem_foldl_union.1 (Std.ExtTreeSet.mem_toList.1 hb) with hb | ⟨set, hset, hb⟩
  · exact (Std.ExtTreeSet.not_mem_empty hb).elim
  · rcases List.mem_append.1 hset with hset | hset
    · exact htrees set hset b hb
    · exact hbodies set hset b hb

theorem ends_inferGroup {ws : Workspace} (hws : I ws) {env : Env}
    (henv : sh.Ground → env.Closed) {group : List BlockId} (hgroup : joint group) :
    Ends (inferGroup env group) ws (fun env' ws' => (sh.Ground → env'.Closed) ∧ I ws')
      fun _ => False := by
  have hshape := (hI.ofShape hws).1.1
  have hfinding := finding_group (hshape ▸ hsh.toWired) (hshape ▸ henv) hgroup
  rw [inferGroup, ends_bind, ends_get, ends_bind, ends_runInference]
  dsimp only at hfinding ⊢
  rw [ends_bind]
  refine (hI.keep hws hfinding).2.imp (fun _ ws₁ hws₁ => ?_) fun _ => id
  rw [ends_bind]
  refine (Completes.forM (fun entry _ => hI.warn entry.1 entry.2) ws₁ hws₁).imp
    (fun _ ws₂ hws₂ => ⟨fun hground => ?_, hws₂⟩) fun _ => id
  exact (henv hground).insertMany (FunctionGroup.closed_schemes (henv hground) _ _)

theorem ends_globalEnv {ws : Workspace} (hws : I ws) :
    Ends globalEnv ws (fun env ws' => (sh.Ground → env.Closed) ∧ I ws') fun _ => False := by
  have hshape := (hI.ofShape hws).1.1
  obtain ⟨calls, hcalls⟩ := exists_callGraph_eq (hshape ▸ hsh.toWired)
  rw [globalEnv, ends_bind, ends_query, hcalls]
  dsimp only
  rw [ends_bind, ends_get]
  refine Ends.foldlM (I := fun env ws' => (sh.Ground → Env.Closed env) ∧ I ws')
    (fun group hgroup env ws' h =>
      ends_inferGroup hI hsh h.2 h.1 (hI.joins hws hcalls group hgroup))
    ⟨fun hground => ?_, hws⟩
  exact closed_declaredEnv (Graph.ground_shape.1 (hshape.symm ▸ hground))

theorem ends_inferTree {ws : Workspace} (hws : I ws) {env : Env}
    (henv : sh.Ground → env.Closed) {root : BlockId} (hroot : sh.Live root) {expected : Option Ty}
    (hexpected : ∀ t ∈ expected, ∃ s, sh.guest s = some root ∧ ws.main.tyAt s = some t) :
    Ends (inferTree env root expected) ws (fun _ => I) fun _ => False := by
  obtain ⟨⟨rfl, -⟩, -⟩ := hI.ofShape hws
  cases hlower : ws.main.lower root with
  | error e => exact (ends_inferTree_unlowered hlower).2 (hI.warn _ _ ws hws)
  | ok l =>
      have hfinding : ws.Finding joint _ _ _ :=
        finding_inference hsh.toWired hroot hlower henv hexpected
      rw [ends_inferTree_iff hlower]
      rcases hrun : (l.inference env root expected).run (InferM.ofPool ws.pool) with ⟨e | s, st⟩ <;>
        rw [hrun] at hfinding
      · exact hI.warn root e _ (hI.keep hws hfinding).1
      · exact (hI.keep hws hfinding).2

theorem completes_inferSlot {env : Env} (henv : sh.Ground → env.Closed) {input : SocketId}
    {r : BlockId × Role} (hinput : sh.site input = some r) :
    Completes I (inferSlot env input) := by
  intro ws hws
  obtain ⟨⟨rfl, -⟩, -⟩ := hI.ofShape hws
  have hty : ws.main.socketTy input = .ok (ws.main.tyAt input) := by
    have hhosts : ws.main.shape.Hosts r.1 (.socket input) := ⟨r.2, hinput⟩
    exact Graph.placeTy_eq hhosts
  rw [inferSlot, ends_bind, ends_ask, Graph.pluggedBlock_eq hsh.toWired hinput]
  cases hguest : ws.main.shape.guest input with
  | none => exact hws
  | some child =>
      dsimp only
      rw [ends_bind, ends_ask, hty]
      dsimp only
      rw [ends_bind]
      exact (ends_inferTree hI hsh hws henv (hsh.toWired.live_of_guest hguest)
        fun t ht => ⟨input, hguest, ht⟩).imp (fun _ _ => id) fun _ => id

theorem completes_inferRoot {env : Env} (henv : sh.Ground → env.Closed) {root : BlockId}
    (hroot : sh.Live root) : Completes I (inferRoot env root) := by
  intro ws hws
  obtain ⟨⟨rfl, -⟩, -⟩ := id (hI.ofShape hws)
  obtain ⟨p, hp⟩ := id hroot
  obtain ⟨block, hblock, rfl⟩ := Graph.shape_ports_eq_some.1 hp
  have htree : Ends (do inferTree env root none; return 1) ws (fun _ => I) fun _ => False :=
    ends_bind.2 ((ends_inferTree hI hsh hws henv hroot (by simp)).imp (fun _ _ => id) fun _ => id)
  rw [inferRoot, ends_bind, ends_ask, Graph.block_eq_ok.2 hblock]
  dsimp only
  split
  · exact hws
  · exact hws
  · refine completes_total (fun input hinput => ?_) ws hws
    obtain ⟨slot, hsite⟩ := (hsh.lists hp).input hinput
    exact completes_inferSlot hI hsh henv hsite
  · exact htree

theorem completes_inferRoots {roots : List BlockId} (hroots : ∀ root ∈ roots, sh.Live root) :
    Completes I (inferRoots roots) := by
  refine .bind (completes_clearWarnings hI hsh hroots) fun _ => fun ws hws => ?_
  rw [ends_bind]
  refine (ends_globalEnv hI hsh hws).imp (fun env ws' h => ?_) fun _ => id
  exact Completes.bind
    (completes_total fun root hroot => completes_inferRoot hI hsh h.1 (hroots root hroot))
    (fun _ => .bind .get fun _ => .pure _) ws' h.2

theorem completes_infer : Completes I infer := by
  intro ws hws
  rw [infer, ends_bind, ends_get]
  refine completes_inferRoots hI hsh (fun root hroot => ?_) ws hws
  rw [← (hI.ofShape hws).1.1]
  exact Graph.live_of_isTop (List.mem_filter.1 hroot).2

/-- The trees that some blocks are in are inferred, as far as the blocks are there. -/
theorem completes_inferAround (bs : List BlockId) : Completes I (do
    let remaining := bs.filter (← get).main.contains
    let roots ← remaining.mapM fun b => ask (·.rootOf b)
    let _ ← inferRoots (Std.ExtTreeSet.ofList roots).toList) := by
  intro ws hws
  have hshape := (hI.ofShape hws).1.1
  rw [ends_bind, ends_get, ends_bind]
  refine (Ends.mapM_all (R := sh.Live) (I := (· = ws)) (fun b hb ws' hws' => ?_) rfl).imp
    (fun roots ws' ⟨hroots, hws'⟩ => ?_) fun _ => False.elim
  · subst hws'
    obtain ⟨p, hp⟩ := Graph.contains_iff.1 (List.mem_filter.1 hb).2
    rw [hshape] at hp
    obtain ⟨top, htop, hbelow, -⟩ :=
      Graph.exists_rootOf_eq (hshape ▸ hsh.toWired) (hshape ▸ hsh.acyclic) (hshape ▸ hp)
    rw [ends_ask, htop]
    exact ⟨hsh.ports_of_connected ⟨p, hp⟩ (hshape ▸ hbelow).connected, rfl⟩
  · subst hws'
    refine Completes.bind (completes_inferRoots hI hsh fun root hroot => ?_) (fun _ => .pure _)
      _ hws
    simp only [Std.ExtTreeSet.mem_toList, Std.ExtTreeSet.mem_ofList, List.contains_iff_mem]
      at hroot
    exact hroots root hroot

end Steady

end WorkspaceM

end Plugboard
