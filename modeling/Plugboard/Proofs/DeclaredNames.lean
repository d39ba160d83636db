import Plugboard.Proofs.CalleesBound
import Plugboard.Proofs.PrincipalLayouts

/-!
# What declarations bind

Where no two types and no two constructors have the same name, the environment of the declarations
binds every constructor and eliminator to its own scheme, and the built-in operators to theirs.
-/

namespace Plugboard

theorem Env.insertMany_append (env : Env) (bindings bindings' : List (String × Scheme)) :
    env.insertMany (bindings ++ bindings') = (env.insertMany bindings).insertMany bindings' :=
  List.foldl_append

theorem Env.lookup_insertMany_of_mem (env : Env) {bindings : List (String × Scheme)}
    (hnames : (bindings.map (·.1)).Nodup) {name : String} {scheme : Scheme}
    (h : (name, scheme) ∈ bindings) : (env.insertMany bindings).lookup name = some scheme := by
  obtain ⟨scheme', hmem, hlookup⟩ := env.exists_lookup_insertMany (List.mem_map_of_mem h)
  cases List.inj_on_of_nodup_map hnames hmem h rfl
  exact hlookup

theorem caseName_injective {typeName typeName' : String}
    (h : caseName typeName = caseName typeName') : typeName = typeName' := by
  have hlist := congrArg String.toList h
  rw [toList_caseName, toList_caseName] at hlist
  exact String.toList_inj.1 (List.append_cancel_left hlist)

/-- What a declaration binds. -/
def DataDecl.bindings (d : DataDecl) : List (String × Scheme) :=
  d.constructors.map (fun c => (c.name, d.constructorScheme c)) ++ [(caseName d.name, d.caseScheme)]

namespace Workspace

variable {ws : Workspace} {env : Env}

/-- No two types have the same name and no two constructors do, and no parameter of a type is called
like the result of its eliminator. -/
structure DeclaresApart (ws : Workspace) : Prop where
  types : (ws.declarations.map (·.name)).Nodup
  constructors : (ws.declarations.flatMap fun d => d.constructors.map (·.name)).Nodup
  params : ∀ d ∈ ws.declarations, DataDecl.resultVar ∉ d.params

theorem DeclaresApart.proper (h : ws.DeclaresApart) {d : DataDecl} (hd : d ∈ ws.declarations) :
    d.Proper :=
  ⟨(List.nodup_flatMap.1 h.constructors).1 d hd, h.params d hd⟩

/-- What has a scheme to lay out calls by is built in or a constructor. -/
theorem exists_of_operatorScheme? {name : String} {scheme : Scheme}
    (h : ws.operatorScheme? name = some scheme) : Prelude.env.lookup name = some scheme ∨
      ∃ d ∈ ws.declarations, ∃ c ∈ d.constructors, c.name = name ∧
        d.constructorScheme c = scheme := by
  refine (Option.or_eq_some_iff.1 h).imp_right fun ⟨_, hconstructor⟩ => ?_
  obtain ⟨d, hd, hscheme⟩ := List.exists_of_findSome?_eq_some hconstructor
  obtain ⟨c, hc, hscheme⟩ := Option.map_eq_some_iff.1 hscheme
  obtain ⟨hname, -⟩ := List.find?_eq_some_iff_append.1 hc
  exact ⟨d, hd, c, List.mem_of_find?_eq_some hc, eq_of_beq hname, hscheme⟩

theorem declaredEnv_eq_insertMany (ws : Workspace) :
    ws.declaredEnv = Prelude.env.insertMany (ws.declarations.flatMap DataDecl.bindings) := by
  rw [declaredEnv]
  generalize Prelude.env = env
  induction ws.declarations generalizing env with
  | nil => rfl
  | cons d decls ih =>
      rw [List.foldl_cons, ih, List.flatMap_cons, Env.insertMany_append, DataDecl.bindings,
        Env.insertMany_append]
      rfl

/-- No name is bound twice. -/
theorem nodup_bindings (hnames : ws.main.shape.NamesApart) (hdecls : ws.DeclaresApart) :
    ((ws.declarations.flatMap DataDecl.bindings).map (·.1)).Nodup := by
  have hnot : ∀ d ∈ ws.declarations, ∀ c ∈ d.constructors, ∀ typeName,
      c.name ≠ caseName typeName := fun d hd c hc typeName heq =>
    hnames.constructor (constructs_of_mem hd hc) (.inr (.inl ⟨typeName, heq⟩))
  obtain ⟨hown, hpairwise⟩ := List.nodup_flatMap.1 hdecls.constructors
  have hbound : ∀ d : DataDecl,
      d.bindings.map (·.1) = d.constructors.map (·.name) ++ [caseName d.name] := fun d => by
    simp [DataDecl.bindings, Function.comp_def]
  rw [List.map_flatMap, List.nodup_flatMap]
  simp only [hbound]
  refine ⟨fun d hd => ?_, ?_⟩
  · refine List.nodup_append.2 ⟨hown d hd, List.nodup_singleton _, ?_⟩
    simp only [List.mem_map, List.mem_singleton]
    rintro _ ⟨c, hc, rfl⟩ _ rfl
    exact hnot d hd c hc d.name
  · have htypes := List.pairwise_map.1 hdecls.types
    refine (hpairwise.and htypes).imp_of_mem fun {d d'} hd hd' h => ?_
    have hne : caseName d'.name ≠ caseName d.name := fun heq => h.2 (caseName_injective heq).symm
    simp only [Function.onFun, List.disjoint_append_left, List.disjoint_append_right,
      List.disjoint_singleton, List.singleton_disjoint, List.mem_append, List.mem_map,
      List.mem_singleton, hne, or_false]
    refine ⟨⟨h.1, ?_⟩, ?_⟩
    · rintro ⟨c, hc, heq⟩
      exact hnot d' hd' c hc d.name heq
    · rintro ⟨c, hc, heq⟩
      exact hnot d hd c hc d'.name heq

theorem knows_declaredEnv (hnames : ws.main.shape.NamesApart) (hdecls : ws.DeclaresApart) :
    ws.Knows ws.declaredEnv where
  operator {name scheme} h := by
    rcases exists_of_operatorScheme? h with hprelude | ⟨d, hd, c, hc, rfl, rfl⟩
    · have hsome : (Prelude.env.lookup name).isSome := hprelude ▸ rfl
      refine (lookup_declaredEnv (fun hconstructs => ?_) fun typeName heq => ?_).trans hprelude
      · exact hnames.constructor hconstructs (.inl hsome)
      · rw [heq, Prelude.lookup_caseName] at hsome
        cases hsome
    · rw [declaredEnv_eq_insertMany]
      refine Env.lookup_insertMany_of_mem _ (nodup_bindings hnames hdecls) ?_
      exact List.mem_flatMap.2 ⟨d, hd, List.mem_append_left _ (List.mem_map.2 ⟨c, hc, rfl⟩)⟩
  eliminator {typeName decl} h := by
    obtain ⟨hname, -⟩ := List.find?_eq_some_iff_append.1 h
    obtain rfl : decl.name = typeName := eq_of_beq hname
    rw [declaredEnv_eq_insertMany]
    refine Env.lookup_insertMany_of_mem _ (nodup_bindings hnames hdecls) ?_
    exact List.mem_flatMap.2 ⟨decl, List.mem_of_find?_eq_some h, List.mem_append_right _
      (List.mem_singleton_self _)⟩

/-- Built-in operators, constructors and eliminators are no functions. -/
theorem Knows.of_functions (h : ws.Knows env) (hnames : ws.main.shape.NamesApart) {env' : Env}
    (hlookup : ∀ name, (∀ f, ¬ ws.main.shape.Defines f name) →
      env'.lookup name = env.lookup name) : ws.Knows env' where
  operator {name scheme} hscheme := by
    refine (hlookup name fun f hdefines => ?_).trans (h.operator hscheme)
    rcases exists_of_operatorScheme? hscheme with hprelude | ⟨d, hd, c, hc, rfl, -⟩
    · exact (hnames.function hdefines).1 (.inl (hprelude ▸ rfl))
    · exact (hnames.function hdefines).2 (constructs_of_mem hd hc)
  eliminator {typeName decl} hdecl :=
    (hlookup _ fun f hdefines => (hnames.function hdefines).1 (.inr (.inl ⟨_, rfl⟩))).trans
      (h.eliminator hdecl)

section

variable {ws' : Workspace} (heq : ws'.declarations = ws.declarations)

include heq

theorem DeclaresApart.of_declarations_eq (h : ws.DeclaresApart) : ws'.DeclaresApart :=
  ⟨heq ▸ h.types, heq ▸ h.constructors, heq ▸ h.params⟩

theorem knows_iff : ws'.Knows env ↔ ws.Knows env := by
  have hoperator : ws'.operatorScheme? = ws.operatorScheme? := funext fun name => by
    rw [operatorScheme?, operatorScheme?, heq]
  have hdeclaration : ws'.declaration? = ws.declaration? := funext fun name => by
    rw [declaration?, declaration?, heq]
  exact ⟨fun h => ⟨hoperator ▸ h.operator, hdeclaration ▸ h.eliminator⟩,
    fun h => ⟨hoperator ▸ h.operator, hdeclaration ▸ h.eliminator⟩⟩

end

end Workspace

end Plugboard
