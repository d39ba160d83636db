import Plugboard.Proofs.CalleesFirst
import Plugboard.Proofs.ChosenNames
import Plugboard.Proofs.Coherence
import Plugboard.Proofs.MentionedNames
import Plugboard.Proofs.SameShape

/-!
# Callees are bound when their callers are inferred

When it is the turn of a group of functions, every function that one of them calls is in the group
or has been generalized and bound together with a group before. This is so wherever the call stands
in the body and in whatever order the blocks were created, for the groups are those of the call
graph. A variable that bears the name of a function does not count as a call.
-/

namespace Plugboard

open Relation

/-- No two functions have the same name. -/
def Shape.DistinctFunctions (sh : Shape) : Prop :=
  ∀ b c name, sh.Defines b name → sh.Defines c name → b = c

/-- Every variable in the scheme is quantified, up to those that the environment leaves open under
what has been found. -/
def Scheme.General (scheme : Scheme) (env : Env) : Prop :=
  (∃ s t, scheme.Generalizes (env.apply s) t) ∨ scheme.Closed

theorem Env.exists_lookup_insertMany (env : Env) {bindings : List (String × Scheme)}
    {name : String} (h : name ∈ bindings.map (·.1)) :
    ∃ scheme, (name, scheme) ∈ bindings ∧ (env.insertMany bindings).lookup name = some scheme := by
  induction bindings generalizing env with
  | nil => exact (List.not_mem_nil h).elim
  | cons binding bindings ih =>
      by_cases hmem : name ∈ bindings.map (·.1)
      · obtain ⟨scheme, hscheme, hlookup⟩ := ih (env.insert binding.1 binding.2) hmem
        exact ⟨scheme, List.mem_cons_of_mem _ hscheme, hlookup⟩
      · obtain rfl := (List.mem_cons.1 h).resolve_right hmem
        refine ⟨binding.2, List.mem_cons_self, (lookup_insertMany_of_not_mem hmem).trans ?_⟩
        rw [lookup_insert, if_pos rfl]

namespace FunctionGroup

variable {env : Env} {st : InferState}

theorem run_bindings_general (env : Env) (s : Subst) (found : List (Ty × Option TypeError))
    (st : InferState) :
    let r := (found.mapM fun (self, error) => bindingOf env s self error).run st
    r.1.length = found.length ∧ ∀ scheme ∈ r.1, scheme.General env := by
  induction found generalizing st with
  | nil => exact ⟨rfl, fun scheme hmem => (List.not_mem_nil hmem).elim⟩
  | cons entry found ih =>
      obtain ⟨self, error⟩ := entry
      rw [List.mapM_cons, StateT.run_bind]
      cases error with
      | none =>
          exact ⟨congrArg (· + 1) (ih st).1, List.forall_mem_cons.2
            ⟨.inl ⟨s, _, Scheme.generalize_generalizes _ _⟩, (ih st).2⟩⟩
      | some e =>
          have hrest := ih { st with pool := st.pool.allocate.2 }
          exact ⟨congrArg (· + 1) hrest.1, List.forall_mem_cons.2
            ⟨.inr (Scheme.closed_closed _), hrest.2⟩⟩

/-- Every member is bound, and to a general scheme. -/
theorem schemes_general (env : Env) (members : List Member) (st : InferState) :
    ((infer env members).run st).1.schemes.map (·.1) = members.map (·.name) ∧
      ∀ binding ∈ ((infer env members).run st).1.schemes, binding.2.General env := by
  rw [run_infer_eq]
  have hfresh := length_freshVars members st
  generalize (members.mapM fun _ => freshVar).run st = r₁ at hfresh ⊢
  obtain ⟨selves, st₁⟩ := r₁
  have hbodies := length_inferBodies (env.insertMany ((members.map (·.name)).zip
    (selves.map .mono))) (members.zip selves) .empty st₁
  dsimp only at hfresh hbodies ⊢
  generalize (inferBodies _ (members.zip selves) .empty).run st₁ = r₂ at hbodies ⊢
  obtain ⟨⟨s, errors⟩, st₂⟩ := r₂
  obtain ⟨hlength, hgeneral⟩ := run_bindings_general env s (selves.zip errors) st₂
  refine ⟨List.map_fst_zip ?_, fun binding hmem => hgeneral _ (List.of_mem_zip hmem).2⟩
  dsimp only at hbodies
  rw [List.length_zip, hfresh] at hbodies
  rw [hlength, List.length_zip, hfresh, hbodies, List.length_map]
  omega

end FunctionGroup

namespace CallGraph

/-- Every function with the functions that it calls. -/
def entries (g : CallGraph) : List (BlockId × List BlockId) :=
  g.calls.toList.map fun entry => (entry.1, entry.2.toList)

theorem ext_entries {g h : CallGraph} (heq : g.entries = h.entries) : g = h := by
  have hinjective : Function.Injective fun entry : BlockId × BlockSet =>
      (entry.1, entry.2.toList) := by
    rintro ⟨f, fs⟩ ⟨f', fs'⟩ heq
    obtain ⟨hf, hfs⟩ := Prod.mk.inj heq
    exact congrArg₂ Prod.mk hf (Std.ExtTreeSet.toList_inj.1 hfs)
  cases g
  cases h
  exact congrArg mk (Std.ExtTreeMap.toList_inj.1 (hinjective.list_map heq))

end CallGraph

namespace Graph

variable {g : Graph} {b c : BlockId}

theorem mem_children_of_takes {following : List BlockId} (hchildren : g.children b = .ok following)
    (h : g.Takes b c) : c ∈ following := by
  obtain ⟨slot, s, hs, hc⟩ := h
  obtain ⟨block, hblock, hs⟩ := bind_eq_ok.1 hs
  split at hs
  · rename_i hfind
    cases hs
    exact mem_children_of_input hchildren hblock (List.mem_of_find?_eq_some hfind) hc
  · cases hs

/-- All that goes into the term of a block is among its descendants. -/
theorem mem_descendants_of_takes {found : BlockSet} (h : g.descendants b = .ok found)
    (hpath : ReflTransGen g.Takes b c) : c ∈ found := by
  obtain ⟨hexplored, hok⟩ :=
    explored_of_explore mem_world_of_children g.depth g.card_unseen_empty_lt h
  induction hpath with
  | refl => exact hexplored.enters b (List.mem_singleton_self b)
  | @tail c d _ htakes ih =>
      have hnew : c ∉ (∅ : BlockSet) := Std.ExtTreeSet.not_mem_empty
      obtain ⟨following, hfollowing⟩ := (hok c ih).resolve_left hnew
      exact hexplored.closed _ ih hnew _
        ⟨following, hfollowing, mem_children_of_takes hfollowing htakes⟩

end Graph

namespace Workspace

variable {ws : Workspace} {f g b : BlockId} {fname name : String}

/-- An entry of the call graph holds what is called below the function. -/
theorem getElem?_callGraph {calls : CallGraph} (hcalls : ws.callGraph = .ok calls)
    (hf : f ∈ ws.functionTable.values) :
    ∃ callees, ws.calleesBelow f = .ok callees ∧ calls.calls[f]? = some callees := by
  have hentry := Std.ExtTreeMap.mem_keys.1 (mem_functions_callGraph hcalls hf)
  obtain ⟨callees, hlookup⟩ :=
    Option.isSome_iff_exists.1 (Std.ExtTreeMap.mem_iff_isSome_getElem?.1 hentry)
  refine ⟨callees, ?_, hlookup⟩
  rw [callGraph] at hcalls
  obtain ⟨entries, hentries, hcalls⟩ := bind_eq_ok.1 hcalls
  cases hcalls
  obtain ⟨f', -, hanswer⟩ := exists_of_mem_mapM hentries (mem_of_getElem?_ofList hlookup)
  obtain ⟨callees', hcallees', heq⟩ := bind_eq_ok.1 hanswer
  cases heq
  exact hcallees'

/-- An operator in the body of a function makes for a call of the function that it names. -/
theorem calls_of_operator (hunique : ws.main.shape.DistinctFunctions) {calls : CallGraph}
    (hcalls : ws.callGraph = .ok calls) (hf : ws.main.shape.Defines f fname)
    (hpath : ReflTransGen ws.main.Takes f b) {block : Block}
    (hblock : ws.main.blocks[b]? = some block) {arity : Nat}
    (hkind : block.kind = .operator name arity) (hg : ws.main.shape.Defines g name) :
    calls.Calls f g := by
  have htable := functionTable_eq_some hf fun c hc => hunique c f fname hc hf
  obtain ⟨callees, hcallees, hlookup⟩ :=
    getElem?_callGraph hcalls (mem_values_iff.2 ⟨fname, htable⟩)
  obtain ⟨below, hbelow, hcallees⟩ := bind_eq_ok.1 hcallees
  cases hcallees
  rw [CallGraph.Calls, CallGraph.callees, hlookup, Option.getD_some, Std.ExtTreeSet.mem_ofList,
    List.contains_iff_mem]
  refine List.mem_filterMap.2 ⟨b, Std.ExtTreeSet.mem_toList.2
    (Graph.mem_descendants_of_takes hbelow hpath), ?_⟩
  rw [hblock]
  change (block.kind.operatorName?.bind fun name => ws.functionTable[name]?) = some g
  rw [hkind]
  exact functionTable_eq_some hg fun c hc => hunique c g name hc hg

/-- What a group of functions comes to when it is inferred now. -/
def typingOf (ws : Workspace) (env : Env) (group : List BlockId) : GroupTyping :=
  ((FunctionGroup.infer env (group.filterMap ws.member?)).run (InferM.ofPool ws.pool)).1

end Workspace

namespace WorkspaceM

/-- What is inferred for `roots` before it is the turn of the groups that follow those in `before`.
Gives the environment then. -/
def bindGroups (roots : List BlockId) (before : List (List BlockId)) : WorkspaceM Env := do
  clearWarnings roots
  before.foldlM inferGroup (← get).declaredEnv

/-- A group adds the bindings of its members to the environment. -/
theorem ends_inferGroup_env (env : Env) (group : List BlockId) (ws : Workspace) :
    Ends (inferGroup env group) ws (fun env' ws' =>
      env' = env.insertMany (ws.typingOf env group).schemes ∧ ws'.main.shape = ws.main.shape)
      fun _ => True := by
  have hend : ∀ {α : Type} (x : WorkspaceM α) (ws : Workspace),
      Ends x ws (fun _ _ => True) fun _ => True := fun x ws => by
    unfold Ends
    split <;> trivial
  have hshape := main_inferGroup (Graph.durable_shape (· = ws.main.shape)) env group ws rfl
  refine (Ends.and (Q := fun env' _ => env' = env.insertMany (ws.typingOf env group).schemes)
    (E := fun _ => True) ?_ hshape).imp (fun _ _ => id) fun _ => And.left
  rw [inferGroup, ends_bind, ends_get, ends_bind, ends_runInference, ends_bind]
  refine (hend _ _).imp (fun _ _ _ => ?_) fun _ => id
  rw [ends_bind]
  exact (hend _ _).imp (fun _ _ _ => rfl) fun _ => id

end WorkspaceM

namespace Workspace

open WorkspaceM

variable {ws ws' : Workspace} {roots group : List BlockId} {before : List (List BlockId)}
  {env : Env} {f g b : BlockId} {fname name : String}

/-- An inference of `roots` comes to a group of functions after those in `before`, with this
environment and workspace. -/
def ComesTo (ws : Workspace) (roots : List BlockId) (before : List (List BlockId))
    (group : List BlockId) (env : Env) (ws' : Workspace) : Prop :=
  ∃ calls after, ws.callGraph = .ok calls ∧ calls.groups = before ++ group :: after ∧
    (bindGroups roots before).run ws = (.ok env, ws')

/-- The function has been bound with an earlier group: the environment gives its name the general
scheme that was found for it then. -/
def BoundBefore (ws : Workspace) (roots : List BlockId) (before : List (List BlockId)) (env : Env)
    (g : BlockId) (name : String) : Prop :=
  ∃ earlier group₀ later env₀ ws₀ scheme, before = earlier ++ group₀ :: later ∧ g ∈ group₀ ∧
    ws.ComesTo roots earlier group₀ env₀ ws₀ ∧
    (name, scheme) ∈ (ws₀.typingOf env₀ group₀).schemes ∧ scheme.General env₀ ∧
    env.lookup name = some scheme

theorem ends_clearWarnings_shape (ws : Workspace) (roots : List BlockId) :
    Ends (clearWarnings roots) ws (fun _ ws' => ws'.main.shape = ws.main.shape)
      fun ws' => ws'.main.shape = ws.main.shape :=
  main_clearWarnings (Graph.durable_shape (· = ws.main.shape)) roots ws rfl

/-- From there the inference goes on with the group. -/
theorem ComesTo.run_inferRoots (h : ws.ComesTo roots before group env ws') :
    ∃ after : List (List BlockId), (inferRoots roots).run ws = (do
      let env ← inferGroup env group
      let env ← after.foldlM inferGroup env
      let count ← total (inferRoot env) roots
      return ⟨count, (← get).warnings⟩ : WorkspaceM Report).run ws' := by
  obtain ⟨calls, after, hcalls, hgroups, hrun⟩ := h
  obtain ⟨⟨⟩, ws₁, hclear, hrun⟩ := run_bind_eq_ok.1 hrun
  have hshape := (ends_clearWarnings_shape ws roots).of_run_eq hclear
  rw [← callGraph_eq (.of_shape_eq hshape)] at hcalls
  have hget : (get : WorkspaceM Workspace).run ws₁ = (.ok ws₁, ws₁) := rfl
  rw [run_bind hget] at hrun
  refine ⟨after, ?_⟩
  rw [inferRoots, run_bind hclear, globalEnv, bind_assoc, run_bind (run_query hcalls), hgroups,
    bind_assoc, run_bind hget, List.foldlM_append, bind_assoc, run_bind hrun, List.foldlM_cons,
    bind_assoc]

theorem main_foldlM_inferGroup (groups : List (List BlockId)) (env : Env) (sh : Shape) :
    Preserves (fun ws => ws.main.shape = sh) (groups.foldlM inferGroup env) :=
  .foldlM env fun env group _ => main_inferGroup (Graph.durable_shape (· = sh)) env group

/-- Before the groups that are done were inferred, each of them had its turn. -/
theorem ComesTo.exists_earlier {earlier later : List (List BlockId)} {group₀ : List BlockId}
    (h : ws.ComesTo roots (earlier ++ group₀ :: later) group env ws') :
    ∃ env₀ ws₀ env₁ ws₁, ws.ComesTo roots earlier group₀ env₀ ws₀ ∧
      ws₀.main.shape = ws.main.shape ∧ (inferGroup env₀ group₀).run ws₀ = (.ok env₁, ws₁) ∧
      (later.foldlM inferGroup env₁).run ws₁ = (.ok env, ws') := by
  obtain ⟨calls, after, hcalls, hgroups, hrun⟩ := h
  obtain ⟨⟨⟩, ws_cleared, hclear, hrun⟩ := run_bind_eq_ok.1 hrun
  have hget : (get : WorkspaceM Workspace).run ws_cleared = (.ok ws_cleared, ws_cleared) := rfl
  rw [run_bind hget, List.foldlM_append] at hrun
  obtain ⟨env₀, ws₀, hearlier, hrun⟩ := run_bind_eq_ok.1 hrun
  rw [List.foldlM_cons] at hrun
  obtain ⟨env₁, ws₁, hgroup, hlater⟩ := run_bind_eq_ok.1 hrun
  refine ⟨env₀, ws₀, env₁, ws₁, ⟨calls, later ++ group :: after, hcalls, ?_, ?_⟩, ?_, hgroup,
    hlater⟩
  · rw [hgroups, List.append_assoc, List.cons_append]
  · rw [bindGroups, run_bind hclear, run_bind hget, hearlier]
  · exact (main_foldlM_inferGroup earlier _ ws.main.shape ws_cleared
      ((ends_clearWarnings_shape ws roots).of_run_eq hclear)).of_run_eq hearlier

/-- A name that no member of the groups has keeps its binding. -/
theorem ends_foldlM_inferGroup_lookup {sh : Shape} {groups : List (List BlockId)}
    (hnone : ∀ group ∈ groups, ∀ f ∈ group, ¬ sh.Defines f name) {ws : Workspace}
    (hws : ws.main.shape = sh) (env : Env) :
    Ends (groups.foldlM inferGroup env) ws (fun env' _ => env'.lookup name = env.lookup name)
      fun _ => True := by
  refine (Ends.foldlM (I := fun env' ws' => env'.lookup name = env.lookup name ∧
    ws'.main.shape = sh) (fun group hgroup env₁ ws₁ h => ?_) ⟨rfl, hws⟩).imp
    (fun _ _ => And.left) fun _ => id
  refine (ends_inferGroup_env env₁ group ws₁).imp (fun env₂ ws₂ h' => ?_) fun _ => id
  obtain ⟨rfl, hshape⟩ := h'
  refine ⟨(Env.lookup_insertMany_of_not_mem fun hmem => ?_).trans h.1, hshape.trans h.2⟩
  rw [typingOf, (FunctionGroup.schemes_general env₁ _ _).1] at hmem
  obtain ⟨m, hm, rfl⟩ := List.mem_map.1 hmem
  obtain ⟨hf, -, hdefines⟩ := of_mem_members hm
  exact hnone group hgroup m.block hf (h.2 ▸ hdefines)

/-- Every function that a member of a group calls is in the group, or it has been bound before. -/
theorem bound_of_calls (hunique : ws.main.shape.DistinctFunctions)
    (hturn : ws.ComesTo roots before group env ws') {calls : CallGraph}
    (hcalls : ws.callGraph = .ok calls) (hf : f ∈ group) (hcall : calls.Calls f g)
    (hg : ws.main.shape.Defines g name) : g ∈ group ∨ ws.BoundBefore roots before env g name := by
  obtain ⟨calls', after, hcalls', hgroups, -⟩ := id hturn
  cases hcalls.symm.trans hcalls'
  refine (CallGraph.mem_or_exists_earlier hgroups hf (.single hcall)).imp_right ?_
  rintro ⟨group₀, hgroup₀, hg₀⟩
  obtain ⟨earlier, later, rfl⟩ := List.append_of_mem hgroup₀
  obtain ⟨env₀, ws₀, env₁, ws₁, hturn₀, hshape, hrun, hlater⟩ := hturn.exists_earlier
  obtain ⟨rfl, hshape₁⟩ := (ends_inferGroup_env env₀ group₀ ws₀).of_run_eq hrun
  obtain ⟨hnames, hgeneral⟩ := FunctionGroup.schemes_general env₀ (group₀.filterMap ws₀.member?)
    (InferM.ofPool ws₀.pool)
  -- the function is a member of that group, and of none that comes later
  have hmember : ws₀.member? g = some ⟨g, name, ws₀.main.lower g⟩ :=
    member?_eq_some.2 ⟨hshape ▸ hg, rfl, rfl⟩
  have hbinds : name ∈ (ws₀.typingOf env₀ group₀).schemes.map (·.1) := by
    rw [typingOf, hnames]
    exact List.mem_map.2 ⟨_, List.mem_filterMap.2 ⟨g, hg₀, hmember⟩, rfl⟩
  have hnone : ∀ group ∈ later, ∀ f ∈ group, ¬ ws.main.shape.Defines f name := by
    intro group hgroup f hf hdefines
    have hnodup := calls.nodup_flatten_groups
    rw [hgroups, List.append_assoc, List.flatten_append, List.cons_append, List.flatten_cons]
      at hnodup
    have hapart := (List.nodup_append.1 (List.nodup_append.1 hnodup).2.1).2.2
    obtain rfl := hunique f g name hdefines hg
    refine hapart f hg₀ f ?_ rfl
    exact List.mem_flatten.2 ⟨group, List.mem_append_left _ hgroup, hf⟩
  obtain ⟨scheme, hscheme, hlookup⟩ := Env.exists_lookup_insertMany env₀ hbinds
  have hkept := (ends_foldlM_inferGroup_lookup hnone (hshape₁.trans hshape) _).of_run_eq hlater
  exact ⟨earlier, group₀, later, env₀, ws₀, scheme, rfl, hg₀, hturn₀, hscheme,
    hgeneral _ hscheme, hkept.trans hlookup⟩

/-- A name that is free in the lowered body of a function, and is no variable there and nothing that
has a meaning of its own, is that of a function in the same group or of one bound before. -/
theorem bound_of_mentions (hunique : ws.main.shape.DistinctFunctions)
    (hturn : ws.ComesTo roots before group env ws') (hf : f ∈ group)
    (hdefines : ws.main.shape.Defines f fname) {l : Lowered} (hl : ws.main.lower f = .ok l)
    (hname : l.term.Mentions name) (hplain : ¬ Reserved name)
    (hvariable : ∀ c block, ReflTransGen ws.main.Takes f c → ws.main.blocks[c]? = some block →
      block.kind ≠ .variable name) (hg : ws.main.shape.Defines g name) :
    g ∈ group ∨ ws.BoundBefore roots before env g name := by
  obtain ⟨calls, -, hcalls, -⟩ := id hturn
  rcases Graph.mentions_lower hl hname with hhole | ⟨c, block, hpath, hblock, hbrings⟩
  · exact (hplain (.inr (.inr hhole))).elim
  · obtain ⟨arity, hkind⟩ := (BlockKind.eq_of_brings hplain hbrings).resolve_left
      (hvariable c block hpath hblock)
    exact bound_of_calls hunique hturn hcalls hf
      (calls_of_operator hunique hcalls hdefines hpath hblock hkind hg) hg

/-- Every function that an operator in the body of a function calls is in the same group, or it has
been bound before. -/
theorem bound_of_operator (hunique : ws.main.shape.DistinctFunctions)
    (hturn : ws.ComesTo roots before group env ws') (hf : f ∈ group)
    (hdefines : ws.main.shape.Defines f fname) (hpath : ReflTransGen ws.main.Takes f b)
    {block : Block} (hblock : ws.main.blocks[b]? = some block) {arity : Nat}
    (hkind : block.kind = .operator name arity) (hg : ws.main.shape.Defines g name) :
    g ∈ group ∨ ws.BoundBefore roots before env g name := by
  obtain ⟨calls, -, hcalls, -⟩ := id hturn
  exact bound_of_calls hunique hturn hcalls hf
    (calls_of_operator hunique hcalls hdefines hpath hblock hkind hg) hg

/-- In an inference of a whole canvas every group has its turn. -/
theorem exists_comesTo (h : ws.Reachable fun ws command => command.AddsUnrepeated ws)
    {calls : CallGraph} (hcalls : ws.callGraph = .ok calls) {after : List (List BlockId)}
    (hgroups : calls.groups = before ++ group :: after) :
    ∃ env ws', ws.ComesTo ws.main.topBlocks before group env ws' := by
  have hsh : ws.main.shape.Regular ∅ := h.settled.1.1
  have hsteady : Steady _ ws.flyout.shape _ _ := .of_shape hsh
  have hends : Ends (bindGroups ws.main.topBlocks before) ws (fun _ _ => True) fun _ => False := by
    rw [bindGroups, ends_bind]
    refine (hsteady.completes_clearWarnings hsh (fun root hroot => ?_) ws
      ⟨⟨rfl, rfl⟩, h.settled.2⟩).imp (fun _ ws₁ hws₁ => ?_) fun _ => id
    · exact Graph.live_of_isTop (List.mem_filter.1 hroot).2
    · rw [ends_bind, ends_get]
      refine (Ends.foldlM (I := fun env ws' => (ws.main.shape.Ground → env.Closed) ∧
        OfShape ws.main.shape ws.flyout.shape ws') (fun group _ env ws' h' =>
          hsteady.ends_inferGroup hsh h'.2 h'.1 trivial) ⟨fun hground => ?_, hws₁⟩).imp
        (fun _ _ _ => trivial) fun _ => id
      exact closed_declaredEnv (Graph.ground_shape.1 (hws₁.1.1 ▸ hground))
  obtain ⟨env, ws', hrun, -⟩ := hends.exists_run
  exact ⟨env, ws', calls, after, hcalls, hgroups, hrun⟩

theorem distinctFunctions_of_functions {fs : List (BlockId × String × List String)}
    (hfs : ws.functions = fs) (hdistinct : ∀ f ∈ fs, ∀ f' ∈ fs, f.2.1 = f'.2.1 → f.1 = f'.1) :
    ws.main.shape.DistinctFunctions := by
  intro b c name hb hc
  obtain ⟨params, hb⟩ := exists_mem_functions hb
  obtain ⟨params', hc⟩ := exists_mem_functions hc
  exact hdistinct (b, name, params) (hfs ▸ hb) (c, name, params') (hfs ▸ hc) rfl

/-- The function that was created first calls the other one, which is bound before it. -/
theorem bound_of_operator_caller_first :
    let ws := [.add .main (.function "f" []), .add .main (.function "g" []),
      .add .main (.operator "g" 0), .plug ⟨2⟩ ⟨0⟩ "RETURN"].foldl after (ofSettings default)
    ws.main.shape.DistinctFunctions ∧ ∃ env ws',
      ws.ComesTo ws.main.topBlocks [[⟨1⟩]] [⟨0⟩] env ws' ∧
      ws.BoundBefore ws.main.topBlocks [[⟨1⟩]] env ⟨1⟩ "g" := by
  intro ws
  have hreachable : ws.Reachable fun ws command => command.AddsUnrepeated ws :=
    (Reachable.start default).foldl (by simp [Command.AddsUnrepeated, BlockKind.Unrepeated])
  have hfunctions : ws.functions = [(⟨0⟩, "f", []), (⟨1⟩, "g", [])] := by
    subst ws
    cbv
  have hcalls : ws.callGraph.map (·.entries) = .ok [(⟨0⟩, [⟨1⟩]), (⟨1⟩, [])] := by
    subst ws
    cbv
  have hinput : ws.main.inputNamed ⟨0⟩ "RETURN" = .ok ⟨0⟩ := by
    subst ws
    cbv
  have hplugged : ws.main.pluggedBlock ⟨0⟩ = .ok (some ⟨2⟩) := by
    subst ws
    cbv
  have hkind : (ws.main.blocks[(⟨2⟩ : BlockId)]?).map (·.kind) = some (.operator "g" 0) := by
    subst ws
    cbv
  clear_value ws
  have hdefines : ∀ b name, (b, name, []) ∈ ws.functions → ws.main.shape.Defines b name :=
    fun _ _ => defines_of_mem
  rw [hfunctions] at hdefines
  have hdistinct := distinctFunctions_of_functions hfunctions (by decide)
  obtain ⟨calls, hcalls, hentries⟩ := map_eq_ok.1 hcalls
  obtain rfl : calls = ⟨.ofList [(⟨0⟩, .ofList [⟨1⟩] compare), (⟨1⟩, ∅)] compare⟩ :=
    CallGraph.ext_entries (hentries.trans (by decide +kernel))
  obtain ⟨block, hblock, hkind⟩ := Option.map_eq_some_iff.1 hkind
  have hgroups : CallGraph.groups ⟨.ofList [(⟨0⟩, .ofList [⟨1⟩] compare), (⟨1⟩, ∅)] compare⟩ =
      [[⟨1⟩]] ++ [[⟨0⟩]] := by decide +kernel
  obtain ⟨env, ws', hturn⟩ := exists_comesTo hreachable hcalls hgroups
  exact ⟨hdistinct, env, ws', hturn, (bound_of_operator hdistinct hturn (List.mem_singleton_self _)
    (hdefines ⟨0⟩ "f" (by decide)) (.single ⟨"RETURN", ⟨0⟩, hinput, hplugged⟩) hblock hkind
    (hdefines ⟨1⟩ "g" (by decide))).resolve_left (by decide)⟩

/-- A variable that bears the name of a function makes for no call: here the function that it names
has its turn later. -/
theorem not_bound_of_mentions : ¬ ∀ {ws ws' : Workspace} {group : List BlockId}
    {before : List (List BlockId)} {env : Env} {f g : BlockId} {fname name : String} {l : Lowered},
    ws.Reachable (fun _ _ => True) → ws.main.shape.DistinctFunctions →
    ws.ComesTo ws.main.topBlocks before group env ws' → f ∈ group →
    ws.main.shape.Defines f fname → ws.main.lower f = .ok l → l.term.Mentions name →
    ws.main.shape.Defines g name →
    g ∈ group ∨ ws.BoundBefore ws.main.topBlocks before env g name := by
  intro hclaim
  let commands : List Command := [.add .main (.function "f" []), .add .main (.function "g" []),
    .add .main (.variable "g"), .plug ⟨2⟩ ⟨0⟩ "RETURN"]
  let ws := commands.foldl after (ofSettings default)
  have hreachable : ws.Reachable fun ws command => command.AddsUnrepeated ws :=
    (Reachable.start default).foldl
      (by simp [commands, Command.AddsUnrepeated, BlockKind.Unrepeated])
  have hfunctions : ws.functions = [(⟨0⟩, "f", []), (⟨1⟩, "g", [])] := by
    subst ws commands
    cbv
  have hcalls : ws.callGraph.map (·.entries) = .ok [(⟨0⟩, []), (⟨1⟩, [])] := by
    subst ws commands
    cbv
  have hlower : ws.main.lower ⟨0⟩ = .ok ⟨.var "g" (some (.block ⟨2⟩)), []⟩ := by
    subst ws commands
    cbv
  clear_value ws
  have hdefines : ∀ b name, (b, name, []) ∈ ws.functions → ws.main.shape.Defines b name :=
    fun _ _ => defines_of_mem
  rw [hfunctions] at hdefines
  obtain ⟨calls, hcalls, hentries⟩ := map_eq_ok.1 hcalls
  obtain rfl : calls = ⟨.ofList [(⟨0⟩, ∅), (⟨1⟩, ∅)] compare⟩ :=
    CallGraph.ext_entries (hentries.trans (by decide +kernel))
  have hgroups : CallGraph.groups ⟨.ofList [(⟨0⟩, ∅), (⟨1⟩, ∅)] compare⟩ =
      [] ++ [[⟨0⟩], [⟨1⟩]] := by decide +kernel
  obtain ⟨env, ws', hturn⟩ := exists_comesTo hreachable hcalls hgroups
  rcases hclaim (hreachable.mono fun _ _ _ => trivial)
    (distinctFunctions_of_functions hfunctions (by decide)) hturn (List.mem_singleton_self _)
    (hdefines ⟨0⟩ "f" (by decide)) hlower rfl (hdefines ⟨1⟩ "g" (by decide)) with
    hmem | ⟨earlier, group₀, later, -, -, -, hsplit, -⟩
  · exact absurd hmem (by decide)
  · simp at hsplit

end Workspace

end Plugboard
