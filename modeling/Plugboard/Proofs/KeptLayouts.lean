import Plugboard.Proofs.BlamedBlocks
import Plugboard.Proofs.Consistency
import Plugboard.Proofs.DeclaredNames
import Plugboard.Proofs.FreshBlocks
import Plugboard.Proofs.IndependentRoots

/-!
# A new block keeps its layout

When the whole canvas is inferred, a block that is alone is left out of everything that is inferred
for others, and if it is a function, it is a group of its own. What is found for the block has the
types of its layout as an instance, so they stay, and no error is blamed on the block.
-/

namespace Plugboard

open InferM Relation Shape Workspace

namespace CallGraph

variable {g : CallGraph} {f x : BlockId}

theorem Mutual.eq_of_not_calls (h : g.Mutual f x) (hf : ∀ y, ¬ g.Calls f y) : x = f := by
  rcases ReflTransGen.cases_head h.1 with heq | ⟨y, hy, -⟩
  · exact heq.symm
  · exact (hf y hy).elim

/-- A function that calls nothing is in a group by itself. -/
theorem eq_singleton_of_not_calls (hf : ∀ y, ¬ g.Calls f y) {members : List BlockId}
    (hmembers : members ∈ g.groups) (hmem : f ∈ members) : members = [f] := by
  obtain ⟨f', -, rfl⟩ := exists_of_mem_groupsAlong hmembers
  have hmutual : ∀ x ∈ (g.group f').toList, g.Mutual f' x := fun x hx =>
    mem_group.1 (Std.ExtTreeSet.mem_toList.1 hx)
  have hall : ∀ x ∈ (g.group f').toList, x = f := fun x hx =>
    ((hmutual f hmem).symm.trans (hmutual x hx)).eq_of_not_calls hf
  have hnodup : (g.group f').toList.Nodup :=
    Std.ExtTreeSet.distinct_toList.imp fun hne heq => hne (Std.compare_eq_iff_eq.2 heq)
  rw [List.eq_replicate_of_mem hall] at hmem hnodup ⊢
  have hlength := List.nodup_replicate.1 hnodup
  have hpos := List.length_pos_of_mem hmem
  rw [List.length_replicate] at hpos
  rw [Nat.le_antisymm hlength hpos]
  rfl

end CallGraph

namespace Shape

variable {sh : Shape} {b : BlockId} {name : String}

/-- A function that nothing is plugged into is inferred by itself. -/
theorem Groups.eq_singleton {group : List BlockId} (h : sh.Groups group) (hsh : sh.Wired)
    (hnames : sh.NamesApart) (halone : sh.Alone b) (hb : sh.Defines b name) (hmem : b ∈ group) :
    group = [b] := by
  obtain ⟨ws, calls, rfl, hcalls, hgroup⟩ := h
  refine CallGraph.eq_singleton_of_not_calls (fun f hcall => ?_) hgroup hmem
  obtain ⟨callees, hcallees, hlookup⟩ := getElem?_callGraph hcalls (mem_functionTable hnames hb)
  obtain ⟨below, hbelow, hcallees⟩ := bind_eq_ok.1 hcallees
  cases hcallees
  rw [CallGraph.Calls, CallGraph.callees, hlookup, Option.getD_some, Std.ExtTreeSet.mem_ofList,
    List.contains_iff_mem] at hcall
  obtain ⟨inner, hinner, hoperator⟩ := List.mem_filterMap.1 hcall
  obtain ⟨p, params, hp, hkind⟩ := hb
  obtain ⟨found, hfound, hbelow'⟩ := Graph.exists_descendants_eq hsh hp
  cases hbelow.symm.trans hfound
  have hconn := ((hbelow' inner).1 (Std.ExtTreeSet.mem_toList.1 hinner)).connected.symm
  obtain rfl := halone.eq_of_connected hsh hconn
  obtain ⟨block, hblock, rfl⟩ := Graph.shape_ports_eq_some.1 hp
  replace hkind : block.kind = .function name params := hkind
  rw [hblock, Option.bind_eq_bind, Option.bind_some, hkind] at hoperator
  cases hoperator

end Shape

/-- What is kept on the block has not changed. -/
theorem Graph.LaidOut.of_keptAt {g g' : Graph} {b : BlockId} {layout : Layout}
    (h : g.LaidOut b layout) (hb : g.shape.Live b) (hshape : g'.shape = g.shape)
    (hkept : ∀ {place}, g.shape.Hosts b place → g'.keptAt place = g.keptAt place) :
    g'.LaidOut b layout where
  input {s slot} hs := by
    rw [hshape] at hs
    have hsame := hkept (show g.shape.Hosts b (.socket s) from ⟨_, hs⟩)
    exact hsame.trans (h.input hs)
  output {s} hs := by
    rw [hshape] at hs
    have hsame := hkept (show g.shape.Hosts b (.socket s) from ⟨_, hs⟩)
    exact hsame.trans (h.output hs)
  param name := (hkept (show g.shape.Hosts b (.param b name) from ⟨rfl, hb⟩)).trans (h.param name)

/-- The types of the layout fit together in the way of a kind with an output; a function may have
any types. -/
inductive Layout.Suits (env : Env) (layout : Layout) : BlockKind → Prop
  | output {kind : BlockKind} {t : Ty} (hout : kind.hasOutput)
      (hvar : ∀ name, kind ≠ .variable name) (houtput : layout.output = some t)
      (hfits : kind.Fits env.Gives layout.input t) : Suits env layout kind
  | function {name : String} {params : List String} (values : String → Ty)
      (hparams : ∀ name ∈ params, layout.params[name]? = some (values name)) :
      Suits env layout (.function name params)

namespace WorkspaceM

variable {sh flyout : Shape} {pool₀ : VarPool} {ws : Workspace} {b : BlockId} {p : Ports}
  {env : Env} {layout : Layout} (hsh : sh.Regular ∅) (hnames : sh.NamesApart) (halone : sh.Alone b)
  (hp : sh.ports b = some p)

include hsh halone hp

/-- Types that those on the block are an instance of are kept as they are. -/
theorem ends_annotate_finds (hws : ws.Sound sh flyout pool₀) {q : String → Ty} {whole : Ty}
    {types : Std.ExtTreeMap Tag Ty} (hfinds : ws.main.Finds b q whole fun tag => types[tag]?)
    (hq : ∀ v, ws.pool.Uses v → q v = .var v)
    (hwhole : ∀ u, u.bind q = whole → types[Tag.block b]? = some u →
      ∀ entry ∈ ws.main.placesOf (.block b) u, ws.main.keptAt entry.1 = some (entry.2.bind q))
    (pool : VarPool) :
    Ends (annotate types) { ws with pool } (fun _ => Spares sh ∅ ws) fun _ => False := by
  obtain ⟨⟨rfl, -⟩, -⟩ := id hws.1
  have htags : ws.main.TagsOn Set.univ types := fun tag t ht => by
    rcases hfinds.tags ht with ⟨rfl, -⟩ | ⟨s, slot, hs, rfl, -⟩
    · exact ⟨b, Set.mem_univ b, rfl, p, hp⟩
    · exact ⟨b, Set.mem_univ b, _, hs⟩
  have hover : ∀ {place t}, ws.main.keptAt place = some t → t.Over ws.pool.Uses :=
    fun ht => hws.2.main.keptAt ht
  have hran := @ends_annotate { ws with pool } ∅ hsh types fun ht =>
    (htags ht).imp fun _ => And.right
  refine hran.imp (fun _ ws' h => ?_) fun _ => id
  obtain ⟨members, rfl, -⟩ := h
  have hinstances := hfinds.instances hsh hp halone hq hover hwhole members
  exact ⟨Graph.shape_annotated _ _, fun _ hplace =>
    hinstances.keptAt_annotated hsh (fun _ => Iff.rfl) htags hover hplace,
    fun _ => Graph.warningAt_annotated types members⟩

include hnames

/-- Inference of a block that is alone changes nothing. -/
theorem ends_inferTree_alone (hws : ws.Sound sh flyout pool₀) (henv : env.Serves sh.Local)
    (hlaid : ws.main.LaidOut b layout) (hout : p.kind.hasOutput)
    (hvar : ∀ name, p.kind ≠ .variable name) {t : Ty} (houtput : layout.output = some t)
    (hfits : p.kind.Fits env.Gives layout.input t) :
    Ends (inferTree env b none) ws (fun _ => Spares sh ∅ ws) fun _ => False := by
  obtain ⟨⟨rfl, -⟩, -⟩ := id hws.1
  obtain ⟨l, s, st, q, hlower, hrun, hq, hfinds⟩ := Graph.exists_finds_section hsh hnames
    hws.2.ground halone hp hws.2.distinct henv hout hvar hlaid hfits
  rw [ends_inferTree_iff hlower, show (l.inference env b none).run _ = _ from hrun]
  exact ends_annotate_finds hsh halone hp hws hfinds hq
    (fun u hu _ => hlaid.kept_output hsh hp hout houtput hu) st.pool

/-- Inference of a function that is alone changes nothing. -/
theorem ends_inferGroup_alone (hws : ws.Sound sh flyout pool₀) (henv : env.Serves sh.Local)
    (hlaid : ws.main.LaidOut b layout) {name : String} {params : List String}
    (hkind : p.kind = .function name params) {values : String → Ty}
    (hparams : ∀ name ∈ params, layout.params[name]? = some (values name)) :
    Ends (inferGroup env [b]) ws (fun _ => Spares sh ∅ ws) fun _ => False := by
  obtain ⟨⟨rfl, -⟩, -⟩ := id hws.1
  obtain ⟨herrors, q, hq, hfinds⟩ := Graph.exists_finds_function hsh hnames hws.2.ground halone hp
    hws.2.distinct henv hkind hlaid (params.map values) (List.length_map ..)
  have hmember : ws.member? b = some ⟨b, name, ws.main.lower b⟩ :=
    member?_eq_some.2 ⟨⟨p, params, hp, hkind⟩, rfl, rfl⟩
  have hmembers : [b].filterMap ws.member? = [⟨b, name, ws.main.lower b⟩] := by
    rw [List.filterMap_cons, hmember, List.filterMap_nil]
  rw [inferGroup, ends_bind, ends_get, hmembers, ends_bind, ends_runInference, ends_bind]
  refine (ends_annotate_finds hsh halone hp hws hfinds hq (fun u hu htag => ?_) _).imp
    (fun _ ws' hws' => ?_) fun _ => id
  · obtain ⟨args, result, hlength, rfl⟩ := hfinds.curried hp hkind htag
    exact hlaid.kept_function hsh hp hkind hlength hparams hu
  · rw [show StateT.run (FunctionGroup.infer env _) _ = _ from rfl, herrors]
    exact hws'

/-- The functions leave the block as it is, and the environment still knows all that is no
function. -/
theorem ends_globalEnv_alone (hws : ws.Sound sh flyout pool₀) (hdecls : ws.DeclaresApart)
    (hlaid : ws.main.LaidOut b layout)
    (hsuits : ∀ env, ws.Knows env → layout.Suits env p.kind) :
    Ends globalEnv ws (fun env ws' => (ws'.Sound sh flyout pool₀ ∧
      Spares sh {c | c ≠ b} ws ws') ∧ env.Serves sh.Local ∧ ws.Knows env) fun _ => False := by
  obtain ⟨⟨rfl, -⟩, -⟩ := id hws.1
  have hK : ws.main.shape.Closed {c | c ≠ b} := closed_of_alone hsh.toWired halone
  refine (ends_globalEnv hsh hnames (I := fun _ env ws' => Spares ws.main.shape {c | c ≠ b} ws ws' ∧
    ∀ name, (∀ f, ¬ ws.main.shape.Defines f name) →
      env.lookup name = ws.declaredEnv.lookup name) ?_ hws ⟨.refl rfl, fun _ _ => rfl⟩).imp
    (fun env ws' h => ?_) fun _ => id
  · intro done group env ws' hgroup henv _ hws' hspares
    suffices hgroup : Ends (inferGroup env group) ws' (fun _ =>
        Spares ws.main.shape {c | c ≠ b} ws) fun _ => False from
      hgroup.imp (fun env' ws'' hspares' _ hlookup => ⟨hspares', fun name hname =>
        (hlookup name fun f _ => hname f).trans (hspares.2 name hname)⟩) fun _ => id
    by_cases hb : b ∈ group ∧ ∃ name, ws.main.shape.Defines b name
    · obtain ⟨hmem, name, hdefines⟩ := hb
      obtain rfl := hgroup.eq_singleton hsh.toWired hnames halone hdefines hmem
      have hlaid' := hlaid.of_keptAt ⟨p, hp⟩ hspares.1.shape
        (hspares.1.keptAt fun hne : b ≠ b => hne rfl)
      obtain ⟨q, params, hq, hkind⟩ := hdefines
      cases hp.symm.trans hq
      have hlayout := hsuits _ (knows_declaredEnv hnames hdecls)
      rw [hkind] at hlayout
      cases hlayout with
      | output hout => cases hout
      | function values hparams =>
          exact (ends_inferGroup_alone hsh hnames halone hp hws' henv hlaid' hkind hparams).imp
            (fun _ ws'' h => hspares.1.trans (h.mono (Set.empty_subset _))) fun _ => id
    · exact completes_inferGroup_spares hsh hK
        (fun f hf name hdefines heq => hb ⟨heq ▸ hf, name, heq ▸ hdefines⟩) ws' hspares.1
  · obtain ⟨hws', henv, -, -, hspares, hlookup⟩ := h
    exact ⟨⟨hws', hspares⟩, henv, (knows_declaredEnv hnames hdecls).of_functions hnames hlookup⟩

/-- All other trees leave the block as it is, and so does its own. -/
theorem completes_inferRoot_alone (hlaid : ws.main.LaidOut b layout)
    (hshape : ws.main.shape = sh) (henv : env.Serves sh.Local)
    (hsuits : layout.Suits env p.kind) {root : BlockId} (hroot : sh.Live root) :
    Completes (fun ws' => ws'.Sound sh flyout pool₀ ∧ Spares sh {c | c ≠ b} ws ws')
      (inferRoot env root) := by
  intro ws' hws'
  have hsound := (steady_sound hsh).completes_inferRoot hsh (fun _ => henv.closed) hroot ws' hws'.1
  suffices hspares : Ends (inferRoot env root) ws' (fun _ => Spares sh {c | c ≠ b} ws)
      fun _ => False from (hsound.and hspares).imp (fun _ _ => id) fun _ => And.left
  by_cases hb : root = b
  · subst hb hshape
    obtain ⟨block, hblock, rfl⟩ := Graph.shape_ports_eq_some.1 (hws'.2.shape.symm ▸ hp)
    rw [inferRoot, ends_bind, ends_ask, Graph.block_eq_ok.2 hblock]
    dsimp only at hsuits ⊢
    generalize hkind : block.kind = kind at hsuits
    cases hsuits with
    | function values hparams => exact hws'.2
    | output hout hvar houtput hfits =>
        have hlaid' := hlaid.of_keptAt ⟨_, hp⟩ hws'.2.shape
          (hws'.2.keptAt fun hne : root ≠ root => hne rfl)
        have htree := (ends_inferTree_alone hsh hnames halone hp hws'.1 henv hlaid' (hkind ▸ hout)
          (hkind ▸ hvar) houtput (hkind ▸ hfits)).imp
          (fun _ ws'' h => hws'.2.trans (h.mono (Set.empty_subset _))) fun _ => id
        split
        · cases hout
        · cases hout
        · cases hout
        · exact ends_bind.2 htree
  · exact completes_inferRoot_spares hsh (closed_of_alone hsh.toWired halone) hroot hb ws' hws'.2

/-- After an inference of the whole canvas the block has its layout and no warning. -/
theorem exists_env_of_alone (hws : ws.Sound sh flyout pool₀) (hdecls : ws.DeclaresApart)
    (hlaid : ws.main.LaidOut b layout)
    (hsuits : ∀ env, ws.Knows env → layout.Suits env p.kind) :
    ∃ env, ws.inferenceEnv = .ok env ∧ ws.Knows env ∧ Ends infer ws (fun _ ws' =>
      ws'.main.LaidOut b layout ∧ ws'.main.warningAt b = none) fun _ => False := by
  obtain ⟨⟨rfl, -⟩, -⟩ := id hws.1
  have hroots : ∀ root ∈ ws.main.topBlocks, ws.main.shape.Live root := fun root hroot =>
    Graph.live_of_isTop (List.mem_filter.1 hroot).2
  obtain ⟨ws₁, hclear, hws₁, hcleared⟩ := exists_clearWarnings hsh hws hroots
  have hlaid₁ := hlaid.of_keptAt ⟨p, hp⟩ hcleared.shape fun _ => hcleared.keptAt _
  -- the block is a root, so an old warning is removed
  have hwarning : ws₁.main.warningAt b = none := by
    obtain ⟨top, htop, hbelow⟩ := Graph.exists_top_of_live hsh ⟨p, hp⟩
    obtain rfl := halone.eq_of_connected hsh.toWired hbelow.connected
    rw [← Option.not_isSome_iff_eq_none, hcleared.warned]
    exact fun h => h.2 (.inl ⟨_, htop, .refl⟩)
  have hsame : ws₁.declarations = ws.declarations :=
    declarations_eq (.of_shape_eq hcleared.shape : ws.main.SameShape ws₁.main)
  obtain ⟨env, ws₂, henvironment, hws₂, henv, hknows⟩ :=
    (ends_globalEnv_alone hsh hnames halone hp hws₁ (hdecls.of_declarations_eq hsame) hlaid₁
      fun env h => hsuits env ((knows_iff hsame).1 h)).exists_run
  replace hknows := (knows_iff hsame).1 hknows
  have hrun : (clearWarnings ws.main.topBlocks >>= fun _ => globalEnv).run ws = (.ok env, ws₂) :=
    (run_bind hclear).trans henvironment
  refine ⟨env, congrArg Prod.fst hrun, hknows, ?_⟩
  rw [infer, ends_bind, ends_get, inferRoots, ends_bind, Ends, hclear]
  dsimp only
  rw [ends_bind, Ends, henvironment]
  dsimp only
  rw [ends_bind]
  refine (completes_total (fun root hroot => completes_inferRoot_alone hsh hnames halone hp hlaid₁
    hcleared.shape henv (hsuits env hknows) (hroots root hroot)) ws₂ hws₂).imp
    (fun _ ws₃ hws₃ => ?_) fun _ => id
  have hb : b ∉ {c | c ≠ b} := fun hne => hne rfl
  rw [ends_bind, ends_get, ends_pure]
  exact ⟨hlaid.of_keptAt ⟨p, hp⟩ hws₃.2.shape fun hplace =>
    (hws₃.2.keptAt hb hplace).trans (hcleared.keptAt _), (hws₃.2.warningAt hb).trans hwarning⟩

end WorkspaceM

end Plugboard
