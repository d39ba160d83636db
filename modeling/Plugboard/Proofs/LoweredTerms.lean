import Plugboard.Proofs.LayoutVariables
import Plugboard.Proofs.NodeTypes
import Plugboard.Workspace.Typing

/-!
# What lowered terms are built from

The term that a block is lowered to has only the literals, the bound names and the tags of the
blocks from it down.
-/

namespace Plugboard

namespace BlockKind

/-- The names that a block binds in what is plugged into it. -/
def binders : BlockKind → List String
  | .lambda param => [param]
  | .localLet name => [name]
  | .comprehension vars _ => vars
  | .cases _ arms => arms.flatMap (·.binders)
  | .function _ params => params
  | _ => []

/-- The literals of the block satisfy one predicate and the names that it binds another. -/
structure MadeOf (lit : Ty → Prop) (bound : String → Prop) (kind : BlockKind) : Prop where
  lit : ∀ value ty, kind = .literal value ty → lit ty
  bound : ∀ name ∈ kind.binders, bound name

end BlockKind

/-- The tag of a node, if it has one, is a marked one. -/
abbrev Term.Marked (marked : Tag → Prop) (tag : Option Tag) : Prop := ∀ t ∈ tag, marked t

/-- A property of terms that is handed on by the constructors, if tags, literals and bound names
are as asked. -/
structure Term.Structural (marked : Tag → Prop) (lit : Ty → Prop) (bound : String → Prop)
    (P : Term → Prop) : Prop where
  var : ∀ name {tag}, Marked marked tag → P (.var name tag)
  lit : ∀ t {tag}, Marked marked tag → lit t → P (.lit t tag)
  app : ∀ {func arg tag}, Marked marked tag → P func → P arg → P (.app func arg tag)
  lam : ∀ {param body tag}, Marked marked tag → bound param → P body → P (.lam param body tag)
  letIn : ∀ {name value body tag}, Marked marked tag → bound name → P value → P body →
    P (.letIn name value body tag)

theorem Term.structural_litsGround (marked : Tag → Prop) (bound : String → Prop) :
    Structural marked (fun t => t.vars = []) bound LitsGround where
  var _ _ _ := trivial
  lit _ _ _ := id
  app _ := .intro
  lam _ _ := id
  letIn _ _ := .intro

theorem Term.structural_bindersIn (marked : Tag → Prop) (lit : Ty → Prop) (bound : String → Prop) :
    Structural marked lit bound (BindersIn bound) where
  var _ _ _ := trivial
  lit _ _ _ _ := trivial
  app _ := .intro
  lam _ := .intro
  letIn _ hname hvalue hbody := ⟨hname, hvalue, hbody⟩

/-- All tags in a term are marked ones. -/
def Term.TagsIn (marked : Tag → Prop) : Term → Prop
  | .var _ tag | .lit _ tag => Marked marked tag
  | .app func arg tag => Marked marked tag ∧ func.TagsIn marked ∧ arg.TagsIn marked
  | .lam _ body tag => Marked marked tag ∧ body.TagsIn marked
  | .letIn _ value body tag => Marked marked tag ∧ value.TagsIn marked ∧ body.TagsIn marked

theorem Term.structural_tagsIn (marked : Tag → Prop) (lit : Ty → Prop) (bound : String → Prop) :
    Structural marked lit bound (TagsIn marked) where
  var _ _ := id
  lit _ _ htag _ := htag
  app htag hfunc harg := ⟨htag, hfunc, harg⟩
  lam htag _ hbody := ⟨htag, hbody⟩
  letIn htag _ hvalue hbody := ⟨htag, hvalue, hbody⟩

namespace Term.Structural

open BlockKind

theorem marked_none (marked : Tag → Prop) : Marked marked none := fun t ht => by simp at ht

variable {marked : Tag → Prop} {lit : Ty → Prop} {bound : String → Prop} {P : Term → Prop}
  {tag : Tag} (h : Structural marked lit bound P)

include h

theorem varNone (name : String) : P (.var name none) := h.var name (marked_none marked)

theorem lamAll {params : List String} {body : Term} (hparams : ∀ param ∈ params, bound param)
    (hbody : P body) : P (Term.lamAll params body) := by
  induction params with
  | nil => exact hbody
  | cons param params ih =>
      rw [List.forall_mem_cons] at hparams
      exact h.lam (marked_none marked) hparams.1 (ih hparams.2)

variable (htag : marked tag)

include htag

theorem varSome (name : String) : P (.var name (some tag)) :=
  h.var name fun _ ht => Option.mem_some.1 ht ▸ htag

theorem call {func : Term} {args : List Term} (hfunc : P func) (hargs : ∀ arg ∈ args, P arg) :
    P (BlockKind.call tag func args) := by
  induction args generalizing func with
  | nil => exact hfunc
  | cons arg args ih =>
      rw [List.forall_mem_cons] at hargs
      exact ih (h.app (fun _ ht => Option.mem_some.1 ht ▸ htag) hfunc hargs.1) hargs.2

theorem callName {name : String} {args : List Term} (hargs : ∀ arg ∈ args, P arg) :
    P (BlockKind.callName tag name args) :=
  h.call htag (h.varNone name) hargs

theorem listTerm {items : List Term} (hitems : ∀ item ∈ items, P item) :
    P (BlockKind.listTerm tag items) := by
  induction items with
  | nil => exact h.varSome htag _
  | cons item items ih =>
      rw [List.forall_mem_cons] at hitems
      exact h.callName htag (by simpa using ⟨hitems.1, ih hitems.2⟩)

theorem comprehensionTerm {generators : List (String × Term)} {guards : List Term} {body : Term}
    (hgenerators : ∀ generator ∈ generators, bound generator.1 ∧ P generator.2)
    (hguards : ∀ guard ∈ guards, P guard) (hbody : P body) :
    P (BlockKind.comprehensionTerm tag generators guards body) := by
  have hguarded : P (guards.foldr
      (fun guard rest => BlockKind.callName tag Prelude.guardName [guard, rest])
      (BlockKind.callName tag Prelude.yieldName [body])) := by
    induction guards with
    | nil => exact h.callName htag (by simpa using hbody)
    | cons guard guards ih =>
        rw [List.forall_mem_cons] at hguards
        exact h.callName htag (by simpa using ⟨hguards.1, ih hguards.2⟩)
  rw [BlockKind.comprehensionTerm]
  induction generators with
  | nil => exact hguarded
  | cons generator generators ih =>
      rw [List.forall_mem_cons] at hgenerators
      refine h.callName htag (List.forall_mem_cons.2 ⟨hgenerators.1.2, ?_⟩)
      simpa using h.lam (marked_none marked) hgenerators.1.1 (ih hgenerators.2)

theorem assemble {kind : BlockKind} {parts : List Term} (hkind : kind.MadeOf lit bound)
    (hparts : ∀ part ∈ parts, P part) : P (kind.assemble tag parts) := by
  have hsome : Marked marked (some tag) := fun _ ht => Option.mem_some.1 ht ▸ htag
  cases kind with
  | literal value ty => exact h.lit ty hsome (hkind.lit value ty rfl)
  | operator name arity =>
      cases parts with
      | nil => exact h.varSome htag _
      | cons part parts => exact h.callName htag hparts
  | «variable» name => exact h.varSome htag _
  | lambda param =>
      match parts with
      | [body] => exact h.lam hsome (hkind.bound param (by simp [binders])) (hparts body (by simp))
      | [] | _ :: _ :: _ => exact h.varNone _
  | apply =>
      cases parts with
      | nil => exact h.varNone _
      | cons func args =>
          rw [List.forall_mem_cons] at hparts
          exact h.call htag hparts.1 hparts.2
  | localLet name =>
      match parts with
      | [value, body] =>
          exact h.letIn hsome (hkind.bound name (by simp [binders])) (hparts value (by simp))
            (hparts body (by simp))
      | [] | [_] | _ :: _ :: _ :: _ => exact h.varNone _
  | list items => exact h.listTerm htag hparts
  | comprehension vars guards =>
      refine h.comprehensionTerm htag (fun generator hmem => ?_) (fun guard hmem => ?_) ?_
      · exact ⟨hkind.bound _ (List.of_mem_zip hmem).1,
          hparts _ (List.mem_of_mem_take (List.of_mem_zip hmem).2)⟩
      · exact hparts _ (List.mem_of_mem_drop (List.mem_of_mem_take hmem))
      · rw [List.getLastD_eq_getLast?]
        cases hlast : parts.getLast? with
        | none => exact h.varNone _
        | some part => exact hparts part (List.mem_of_getLast? hlast)
  | cases typeName arms =>
      cases parts with
      | nil => exact h.varNone _
      | cons scrutinee bodies =>
          rw [List.forall_mem_cons] at hparts
          refine h.callName htag (List.forall_mem_cons.2 ⟨hparts.1, fun e he => ?_⟩)
          rw [← List.map_uncurry_zip_eq_zipWith] at he
          obtain ⟨⟨arm, body⟩, hmem, rfl⟩ := List.mem_map.1 he
          refine h.lamAll (fun param hparam => hkind.bound param ?_)
            (hparts.2 body (List.of_mem_zip hmem).2)
          exact List.mem_flatMap.2 ⟨arm, (List.of_mem_zip hmem).1, hparam⟩
  | function name params =>
      match params, parts with
      | [], [body] => exact hparts body List.mem_cons_self
      | param :: params, [body] =>
          have hparams := List.forall_mem_cons.1 hkind.bound
          exact h.lam hsome hparams.1 (h.lamAll hparams.2 (hparts body List.mem_cons_self))
      | [], [] | [], _ :: _ :: _ | _ :: _, [] | _ :: _, _ :: _ :: _ => exact h.varNone _
  | data decl => exact h.varNone _
  | statement name => exact h.varNone _

end Term.Structural

namespace Graph

variable {g : Graph} {marked : Tag → Prop} {lit : Ty → Prop} {bound : String → Prop}
  {P : Term → Prop}

/-- With a block its holes are marked, and with an input what is plugged into it. -/
def MarksBelow (g : Graph) (marked : Tag → Prop) : Prop :=
  ∀ {b : BlockId} {slot : String} {s : SocketId}, marked (.block b) →
    g.inputNamed b slot = .ok s → (g.pluggedBlock s = .ok none → marked (.socket s)) ∧
      ∀ c, g.pluggedBlock s = .ok (some c) → marked (.block c)

/-- What holds of a hole and of what is plugged in holds of the part of a block in a slot. -/
theorem lowerSlot_induct {Q : Lowered → Prop} {lowerChild : BlockId → Except Fault Lowered}
    {b : BlockId} {slot : String} {l : Lowered}
    (hhole : ∀ s, g.inputNamed b slot = .ok s → g.pluggedBlock s = .ok none →
      Q ⟨.var (holeName s) (some (.socket s)), [s]⟩)
    (hchild : ∀ s c l, g.inputNamed b slot = .ok s → g.pluggedBlock s = .ok (some c) →
      lowerChild c = .ok l → Q l)
    (h : g.lowerSlot lowerChild b slot = .ok l) : Q l := by
  rw [lowerSlot] at h
  obtain ⟨s, hs, h⟩ := bind_eq_ok.1 h
  obtain ⟨child?, hchild?, h⟩ := bind_eq_ok.1 h
  cases child? with
  | none =>
      cases h
      exact hhole s hs hchild?
  | some child => exact hchild s child l hs hchild? h

theorem structural_lowerBlock (hP : Term.Structural marked lit bound P)
    (hg : ∀ {b : BlockId} {block : Block}, g.blocks[b]? = some block →
      block.kind.MadeOf lit bound) (hmarks : g.MarksBelow marked) {fuel : Nat} {b : BlockId}
    (hb : marked (.block b)) {l : Lowered} (h : g.lowerBlock fuel b = .ok l) : P l.term := by
  induction fuel generalizing b l with
  | zero => cases h
  | succ fuel ih =>
      rw [lowerBlock] at h
      obtain ⟨block, hblock, h⟩ := bind_eq_ok.1 h
      cases hruns : block.kind.operands? with
      | none =>
          rw [hruns] at h
          cases h
      | some runs =>
          rw [hruns] at h
          obtain ⟨parts, hparts, h⟩ := bind_eq_ok.1 h
          cases h
          refine hP.assemble hb (hg (block_eq_ok.1 hblock)) fun part hpart => ?_
          obtain ⟨l, hl, rfl⟩ := List.mem_map.1 hpart
          obtain ⟨part, hpart, hl⟩ := List.mem_flatten.1 hl
          obtain ⟨run, -, hrun⟩ := exists_of_mem_mapM hparts hpart
          rw [SlotRun.read_eq_mapM] at hrun
          obtain ⟨slot, -, hslot⟩ := exists_of_mem_mapM hrun hl
          refine lowerSlot_induct (Q := fun l => P l.term) (fun s hs hfree => ?_)
            (fun s c l hs hc hl => ih ((hmarks hb hs).2 c hc) hl) hslot
          exact hP.varSome ((hmarks hb hs).1 hfree) _

theorem structural_lower (hP : Term.Structural marked lit bound P)
    (hg : ∀ {b : BlockId} {block : Block}, g.blocks[b]? = some block →
      block.kind.MadeOf lit bound) (hmarks : g.MarksBelow marked) {b : BlockId}
    (hb : marked (.block b)) {l : Lowered} (h : g.lower b = .ok l) : P l.term := by
  obtain ⟨-, -, h⟩ := bind_eq_ok.1 h
  exact structural_lowerBlock hP hg hmarks hb h

theorem litsGround_lower (hg : g.Ground) {b : BlockId} {l : Lowered} (h : g.lower b = .ok l) :
    l.term.LitsGround :=
  structural_lower (Term.structural_litsGround (fun _ => True) fun _ => True)
    (fun {b block} hb => ⟨fun value ty hkind => by
      have hground := hg hb
      rwa [hkind] at hground, fun _ _ => trivial⟩)
    (fun _ _ => ⟨fun _ => trivial, fun _ _ => trivial⟩)
    trivial h

theorem bindersIn_lower (hg : ∀ {b : BlockId} {block : Block}, g.blocks[b]? = some block →
      ∀ name ∈ block.kind.binders, bound name) {b : BlockId} {l : Lowered}
    (h : g.lower b = .ok l) : l.term.BindersIn bound :=
  structural_lower (Term.structural_bindersIn (fun _ => True) (fun _ => True) bound)
    (fun hb => ⟨fun _ _ _ => trivial, hg hb⟩)
    (fun _ _ => ⟨fun _ => trivial, fun _ _ => trivial⟩) trivial h

theorem tagsIn_lower (hmarks : g.MarksBelow marked) {b : BlockId} (hb : marked (.block b))
    {l : Lowered} (h : g.lower b = .ok l) : l.term.TagsIn marked :=
  structural_lower (Term.structural_tagsIn marked (fun _ => True) fun _ => True)
    (fun _ => ⟨fun _ _ _ => trivial, fun _ _ => trivial⟩) hmarks hb h

end Graph

theorem Workspace.litsGround_of_member? {ws : Workspace} (h : ws.main.Ground) {b : BlockId}
    {m : Member} (hm : ws.member? b = some m) {l : Lowered} (hl : m.lowered = .ok l) :
    l.term.LitsGround := by
  simp only [member?, Option.bind_eq_bind, Option.bind_eq_some_iff] at hm
  obtain ⟨block, -, ⟨name, params⟩, -, hm⟩ := hm
  cases hm
  exact Graph.litsGround_lower h hl

end Plugboard
