import Plugboard.Proofs.CallGroups
import Plugboard.Proofs.CheckedTypes
import Plugboard.Proofs.MentionedNames

/-!
# Names that are chosen apart

Functions, constructors and what blocks bind have names of the user's choice. Where none of these
is built in, stands for an eliminator or a hole, or is a name of another function or constructor,
the environment of the declarations serves all terms on the canvas, a function is found by its
name, and the groups of functions introduce names that are new.
-/

namespace Plugboard

/-- The name has a meaning of its own: it is built in, or it is that of an eliminator or a hole. -/
def Reserved (name : String) : Prop :=
  (Prelude.env.lookup name).isSome ∨ (∃ typeName, name = caseName typeName) ∨
    ∃ s, name = holeName s

theorem toList_caseName (typeName : String) :
    (caseName typeName).toList = "case#".toList ++ typeName.toList :=
  String.toList_append

theorem toList_holeName (s : SocketId) : (holeName s).toList = '%' :: (toString s).toList :=
  String.toList_append

theorem caseName_ne_holeName (typeName : String) (s : SocketId) :
    caseName typeName ≠ holeName s := by
  intro h
  have hlist := congrArg String.toList h
  rw [toList_caseName, toList_holeName] at hlist
  exact absurd (List.cons.inj hlist).1 (by decide)

namespace Prelude

theorem mem_operators_of_isSome {name : String} (h : (env.lookup name).isSome) :
    name ∈ operators.map (·.1) := by
  by_contra hmem
  rw [env, Env.ofList, Env.lookup_insertMany_of_not_mem hmem] at h
  simp [Env.lookup, Env.empty] at h

theorem lookup_caseName (typeName : String) : env.lookup (caseName typeName) = none := by
  have hoperators : ∀ name ∈ operators.map (·.1), name.toList.take 5 ≠ "case#".toList := by
    decide
  by_contra hsome
  refine hoperators _ (mem_operators_of_isSome (Option.isSome_iff_ne_none.2 hsome)) ?_
  rw [toList_caseName]
  exact List.take_left' rfl

theorem lookup_holeName (s : SocketId) : env.lookup (holeName s) = none := by
  have hoperators : ∀ name ∈ operators.map (·.1), name.toList.head? ≠ some '%' := by
    decide
  by_contra hsome
  refine hoperators _ (mem_operators_of_isSome (Option.isSome_iff_ne_none.2 hsome)) ?_
  rw [toList_holeName]
  rfl

end Prelude

theorem not_reserved {name : String} (hoperators : name ∉ Prelude.operators.map (·.1))
    (hcase : name.toList.take 5 ≠ "case#".toList) (hhole : name.toList.head? ≠ some '%') :
    ¬ Reserved name := by
  rintro (hsome | ⟨typeName, rfl⟩ | ⟨s, rfl⟩)
  · exact hoperators (Prelude.mem_operators_of_isSome hsome)
  · refine hcase ?_
    rw [toList_caseName]
    exact List.take_left' rfl
  · refine hhole ?_
    rw [toList_holeName]
    rfl

/-- What is not reserved is brought into a term by operators and variables only. -/
theorem BlockKind.eq_of_brings {kind : BlockKind} {name : String} (hplain : ¬ Reserved name)
    (h : kind.Brings name) : kind = .variable name ∨ ∃ arity, kind = .operator name arity := by
  cases kind
  case «variable» name' => exact .inl (congrArg BlockKind.variable h)
  case operator name' arity => exact .inr ⟨arity, congrArg (BlockKind.operator · arity) h⟩
  case list | comprehension =>
    refine (hplain (.inl (Prelude.Within.isSome_lookup ?_))).elim
    simp only [BlockKind.Brings, List.mem_cons, List.not_mem_nil, or_false] at h ⊢
    tauto
  case cases typeName arms => exact (hplain (.inr (.inl ⟨typeName, h⟩))).elim
  all_goals exact h.elim

namespace Shape

/-- A declared type has a constructor of that name. -/
def Constructs (sh : Shape) (name : String) : Prop :=
  ∃ b p decl, sh.ports b = some p ∧ p.kind = .data decl ∧ ∃ c ∈ decl.constructors, c.name = name

/-- A block binds the name in what is plugged into it. -/
def Binds (sh : Shape) (name : String) : Prop :=
  ∃ b p, sh.ports b = some p ∧ name ∈ p.kind.binders

/-- A block binds the name, or it is that of a hole. -/
def Local (sh : Shape) (name : String) : Prop := sh.Binds name ∨ ∃ s, name = holeName s

/-- Functions have different names, and no name of the user's choice has another meaning. -/
structure NamesApart (sh : Shape) : Prop where
  unique : ∀ {b c name}, sh.Defines b name → sh.Defines c name → b = c
  function : ∀ {b name}, sh.Defines b name → ¬ Reserved name ∧ ¬ sh.Constructs name
  constructor : ∀ {name}, sh.Constructs name → ¬ Reserved name
  binder : ∀ {name}, sh.Binds name →
    ¬ Reserved name ∧ ¬ sh.Constructs name ∧ ∀ b, ¬ sh.Defines b name

variable {sh : Shape} {name : String} {b : BlockId}

theorem bindersIn_local (sh : Shape) : sh.BindersIn sh.Local where
  binder hp _ hname := .inl ⟨_, _, hp, hname⟩
  hole s := .inr ⟨s, rfl⟩

namespace NamesApart

variable (h : sh.NamesApart)

include h

theorem not_constructs_of_local (hname : sh.Local name) : ¬ sh.Constructs name := by
  rcases hname with hbinds | ⟨s, rfl⟩
  · exact (h.binder hbinds).2.1
  · exact fun hconstructs => h.constructor hconstructs (.inr (.inr ⟨s, rfl⟩))

theorem ne_caseName_of_local (hname : sh.Local name) (typeName : String) :
    name ≠ caseName typeName := by
  rintro rfl
  rcases hname with hbinds | ⟨s, heq⟩
  · exact (h.binder hbinds).1 (.inr (.inl ⟨typeName, rfl⟩))
  · exact caseName_ne_holeName typeName s heq

theorem lookup_of_local (hname : sh.Local name) : Prelude.env.lookup name = none := by
  rcases hname with hbinds | ⟨s, rfl⟩
  · exact Option.not_isSome_iff_eq_none.1 fun hsome => (h.binder hbinds).1 (.inl hsome)
  · exact Prelude.lookup_holeName s

theorem not_local_of_defines (hb : sh.Defines b name) : ¬ sh.Local name := by
  rintro (hbinds | ⟨s, rfl⟩)
  · exact (h.binder hbinds).2.2 b hb
  · exact (h.function hb).1 (.inr (.inr ⟨s, rfl⟩))

theorem lookup_of_defines (hb : sh.Defines b name) : Prelude.env.lookup name = none :=
  Option.not_isSome_iff_eq_none.1 fun hsome => (h.function hb).1 (.inl hsome)

end NamesApart

end Shape

namespace Workspace

variable {ws : Workspace} {name : String} {b : BlockId}

theorem constructs_of_mem {d : DataDecl} (hd : d ∈ ws.declarations) {c : Constructor}
    (hc : c ∈ d.constructors) : ws.main.shape.Constructs c.name := by
  obtain ⟨block, hblock, hd⟩ := List.mem_filterMap.1 hd
  obtain ⟨b, hb⟩ := mem_values_iff.1 hblock
  refine ⟨b, _, d, Graph.shape_ports_eq_some.2 ⟨block, hb, rfl⟩, ?_, c, hc, rfl⟩
  cases hkind : block.kind <;> rw [hkind] at hd <;> cases hd
  rfl

/-- What declarations do not bind means what it does everywhere. -/
theorem lookup_declaredEnv (hconstructs : ¬ ws.main.shape.Constructs name)
    (hcase : ∀ typeName, name ≠ caseName typeName) :
    ws.declaredEnv.lookup name = Prelude.env.lookup name := by
  have hdecls : ∀ d ∈ ws.declarations, name ∉ d.constructors.map (·.name) := by
    rintro d hd hmem
    obtain ⟨c, hc, rfl⟩ := List.mem_map.1 hmem
    exact hconstructs (constructs_of_mem hd hc)
  rw [declaredEnv]
  generalize ws.declarations = decls at hdecls
  generalize Prelude.env = env
  induction decls generalizing env with
  | nil => rfl
  | cons d decls ih =>
      rw [List.forall_mem_cons] at hdecls
      rw [List.foldl_cons, ih hdecls.2, Env.lookup_insert, if_neg (hcase d.name).symm]
      refine Env.lookup_insertMany_of_not_mem ?_
      rw [List.map_map]
      exact hdecls.1

theorem serves_declaredEnv (h : ws.main.shape.NamesApart) (hground : ws.main.Ground) :
    ws.declaredEnv.Serves ws.main.shape.Local where
  closed := closed_declaredEnv hground
  apart hname := (lookup_declaredEnv (h.not_constructs_of_local hname)
    (h.ne_caseName_of_local hname)).trans (h.lookup_of_local hname)
  prelude name hname := by
    have hsome := Prelude.Within.isSome_lookup hname
    refine ⟨fun hlocal => ?_, lookup_declaredEnv (fun hconstructs => ?_) ?_⟩
    · rw [h.lookup_of_local hlocal] at hsome
      cases hsome
    · exact h.constructor hconstructs (.inl hsome)
    · rintro typeName rfl
      rw [Prelude.lookup_caseName] at hsome
      cases hsome

theorem lookup_declaredEnv_of_defines (h : ws.main.shape.NamesApart)
    (hb : ws.main.shape.Defines b name) : ws.declaredEnv.lookup name = none := by
  obtain ⟨hfree, hconstructs⟩ := h.function hb
  refine (lookup_declaredEnv hconstructs fun typeName heq => ?_).trans (h.lookup_of_defines hb)
  exact hfree (.inr (.inl ⟨typeName, heq⟩))

theorem defines_of_mem {params : List String} (h : (b, name, params) ∈ ws.functions) :
    ws.main.shape.Defines b name := by
  obtain ⟨block, hblock, hkind⟩ := block_of_mem_functions h
  exact ⟨_, params, Graph.shape_ports_eq_some.2 ⟨block, hblock, rfl⟩, hkind⟩

theorem exists_mem_functions (h : ws.main.shape.Defines b name) :
    ∃ params, (b, name, params) ∈ ws.functions := by
  obtain ⟨p, params, hp, hkind⟩ := h
  obtain ⟨block, hblock, rfl⟩ := Graph.shape_ports_eq_some.1 hp
  replace hkind : block.kind = .function name params := hkind
  refine ⟨params, List.mem_filterMap.2 ⟨(b, block), ?_, ?_⟩⟩
  · exact Std.ExtTreeMap.mem_toList_iff_getElem?_eq_some.2 hblock
  · dsimp only
    rw [hkind]
    rfl

/-- The first function of a name is the one that is called. -/
theorem getElem?_functionTable (ws : Workspace) (name : String) :
    ws.functionTable[name]? = (ws.functions.find? (·.2.1 == name)).map (·.1) := by
  have hfold : ∀ (fs : List (BlockId × String × List String))
      (table : Std.ExtTreeMap String BlockId),
      (fs.foldl (fun table f => table.insertIfNew f.2.1 f.1) table)[name]? =
        (table[name]?).or ((fs.find? (·.2.1 == name)).map (·.1)) := by
    intro fs
    induction fs with
    | nil => simp
    | cons f fs ih =>
        intro table
        rw [List.foldl_cons, ih, Std.ExtTreeMap.getElem?_insertIfNew, List.find?_cons]
        simp only [Std.compare_eq_iff_eq]
        by_cases hname : f.2.1 = name
        · subst hname
          cases hold : table[f.2.1]? with
          | none => simp [Std.ExtTreeMap.mem_iff_isSome_getElem?, hold]
          | some b => simp [Std.ExtTreeMap.mem_iff_isSome_getElem?, hold]
        · rw [if_neg fun h => hname h.1, beq_eq_false_iff_ne.2 hname]
  rw [functionTable, hfold]
  simp

/-- A function whose name no other one has is the one that its name is looked up to. -/
theorem functionTable_eq_some (hb : ws.main.shape.Defines b name)
    (hunique : ∀ c, ws.main.shape.Defines c name → c = b) : ws.functionTable[name]? = some b := by
  rw [getElem?_functionTable]
  obtain ⟨params, hmem⟩ := exists_mem_functions hb
  have hsome : (ws.functions.find? (·.2.1 == name)).isSome :=
    List.find?_isSome.2 ⟨_, hmem, beq_self_eq_true _⟩
  obtain ⟨⟨c, name', params'⟩, hfind⟩ := Option.isSome_iff_exists.1 hsome
  obtain ⟨hsame, -⟩ := List.find?_eq_some_iff_append.1 hfind
  obtain rfl : name' = name := eq_of_beq hsame
  rw [hfind, ← hunique c (defines_of_mem (List.mem_of_find?_eq_some hfind))]
  rfl

theorem mem_functionTable (h : ws.main.shape.NamesApart) (hb : ws.main.shape.Defines b name) :
    b ∈ ws.functionTable.values :=
  mem_values_iff.2 ⟨name, functionTable_eq_some hb fun _ hc => h.unique hc hb⟩

/-- Every function has an entry in the call graph. -/
theorem mem_functions_callGraph {calls : CallGraph} (hcalls : ws.callGraph = .ok calls)
    (hb : b ∈ ws.functionTable.values) : b ∈ calls.functions := by
  rw [callGraph] at hcalls
  obtain ⟨entries, hentries, hcalls⟩ := bind_eq_ok.1 hcalls
  cases hcalls
  obtain ⟨entry, hentry⟩ := exists_map_of_mapM fun b =>
    (do return (b, ← ws.calleesBelow b) : Except Fault (BlockId × BlockSet))
  obtain ⟨rfl, hanswers⟩ := hentry hentries
  obtain ⟨callees, -, heq⟩ := bind_eq_ok.1 (hanswers b hb)
  rw [CallGraph.functions, Std.ExtTreeMap.mem_keys, Std.ExtTreeMap.mem_ofList,
    List.contains_iff_mem, List.map_map]
  refine List.mem_map.2 ⟨b, hb, ?_⟩
  rw [Function.comp_apply, ← Except.ok.inj heq]

end Workspace

end Plugboard
