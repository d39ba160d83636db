import Plugboard.Proofs.LoweringVisits
import Plugboard.Proofs.OpenHoles
import Plugboard.Proofs.PrincipalLayouts
import Plugboard.Proofs.RootOrder
import Plugboard.Proofs.UnmovedTypes

/-!
# Inference of a new block

A block that nothing is plugged into is lowered to a term whose parts are holes. If the types on
its sockets are the principal ones of its kind, they are an instance of what inference finds, and
keeping what has been found changes no type on the canvas.
-/

namespace Plugboard

open InferM Shape

namespace Shape

/-- The block is there, and nothing is plugged into it, nor is it plugged into anything. -/
structure Alone (sh : Shape) (b : BlockId) : Prop where
  live : sh.Live b
  free : ∀ {s role}, sh.site s = some (b, role) → sh.peer s = none

namespace Alone

variable {sh : Shape} {b c : BlockId} {s : SocketId} {role : Role}

theorem guest_eq_none (h : sh.Alone b) (hs : sh.site s = some (b, role)) : sh.guest s = none := by
  rw [guest, h.free hs, Option.bind_none]

variable (hsh : sh.Wired) (h : sh.Alone b)

include hsh h

theorem not_plugged : ¬ sh.Plugged b c ∧ ¬ sh.Plugged c b := by
  constructor
  · rintro ⟨s, d, slot, hs, hpeer, -⟩
    rw [h.free hs] at hpeer
    cases hpeer
  · rintro ⟨s, d, slot, -, hpeer, hd⟩
    have hback := hsh.symm hpeer
    rw [h.free hd] at hback
    cases hback

theorem eq_of_connected (hbc : sh.Connected b c) : c = b := by
  rcases Relation.ReflTransGen.cases_head hbc with heq | ⟨d, hplug | hplug, -⟩
  · exact heq.symm
  · exact ((h.not_plugged hsh).2 hplug).elim
  · exact ((h.not_plugged hsh).1 hplug).elim

end Alone

/-- A set that leaves out a block that is alone is one of whole components. -/
theorem closed_of_alone {sh : Shape} (hsh : sh.Wired) {b : BlockId} (h : sh.Alone b) :
    sh.Closed {c | c ≠ b} := fun hcd =>
  ⟨fun hc heq => hc (h.eq_of_connected hsh (heq ▸ hcd.symm)),
    fun hd heq => hd (h.eq_of_connected hsh (heq ▸ hcd))⟩

end Shape

/-- The variable that stands for a free socket. -/
def Term.hole (s : SocketId) : Term := .var (holeName s) (some (.socket s))

theorem Env.lookup_holeBindings (env : Env) (types : SocketId → Ty) {holes : List SocketId}
    {s : SocketId} (hs : s ∈ holes) :
    (env.insertMany (holeBindings types holes)).lookup (holeName s) = some (.mono (types s)) := by
  induction holes generalizing env with
  | nil => cases hs
  | cons hole holes ih =>
      by_cases hmem : s ∈ holes
      · exact ih _ hmem
      · obtain rfl := (List.mem_cons.1 hs).resolve_right hmem
        have hlast : holeName s ∉ (holeBindings types holes).map (·.1) := fun hname => by
          obtain ⟨binding, hbinding, heq⟩ := List.mem_map.1 hname
          obtain ⟨hole, hhole, rfl⟩ := List.mem_map.1 hbinding
          exact hmem (holeName_injective heq ▸ hhole)
        rw [holeBindings, List.map_cons]
        exact (lookup_insertMany_of_not_mem hlast).trans (lookup_insert_self ..)

theorem Env.sameBut_holeBindings (env : Env) (types : SocketId → Ty) (holes : List SocketId) :
    env.SameBut (holes.map holeName) (env.insertMany (holeBindings types holes)) :=
  SameBut.insertMany (fun binding hbinding => by
    obtain ⟨s, hs, rfl⟩ := List.mem_map.1 hbinding
    exact List.mem_map_of_mem hs) env

/-- What blocks bind, and the holes, are left open by the environment, and what terms are put
together with is built in. -/
structure Env.Open (env : Env) (bound : String → Prop) : Prop where
  prelude : Prelude.Within env bound
  free : ∀ {name}, bound name → env.lookup name = none
  hole : ∀ s, ¬ bound (holeName s) ∧ env.lookup (holeName s) = none

theorem Env.Serves.open {sh : Shape} {env : Env} (h : env.Serves sh.Local)
    (hnames : sh.NamesApart) : env.Open sh.Binds where
  prelude name hname := ⟨fun hbinds => (h.prelude name hname).1 (.inl hbinds),
    (h.prelude name hname).2⟩
  free hbinds := h.apart (.inl hbinds)
  hole s := ⟨fun hbinds => (hnames.binder hbinds).1 (.inr (.inr ⟨s, rfl⟩)), h.apart (.inr ⟨s, rfl⟩)⟩

namespace Env.Open

variable {env : Env} {bound : String → Prop} (h : env.Open bound)

include h

/-- A function has a name of its own. -/
theorem insert {name : String} (hname : ¬ bound name) (hplain : ¬ Reserved name)
    (scheme : Scheme) : (env.insert name scheme).Open bound where
  prelude := by
    have hnew : ∀ binding ∈ [(name, scheme)], Prelude.env.lookup binding.1 = none :=
      List.forall_mem_singleton.2 <| Option.not_isSome_iff_eq_none.1 fun hsome =>
        hplain (.inl hsome)
    exact h.prelude.insertMany hnew
  free hbound := by
    rw [lookup_insert, if_neg, h.free hbound]
    rintro rfl
    exact hname hbound
  hole s := by
    rw [lookup_insert, if_neg fun heq => hplain (.inr (.inr ⟨s, heq⟩))]
    exact h.hole s

theorem not_mem_holes {name : String} (hname : bound name ∨ (env.lookup name).isSome)
    (holes : List SocketId) : name ∉ holes.map holeName := by
  intro hmem
  obtain ⟨s, -, rfl⟩ := List.mem_map.1 hmem
  obtain ⟨hbound, hlookup⟩ := h.hole s
  rw [hlookup] at hname
  exact hname.elim hbound Bool.noConfusion

variable (types : SocketId → Ty) (holes : List SocketId)

theorem prelude_holeBindings : Prelude.Within (env.insertMany (holeBindings types holes)) bound :=
  h.prelude.insertMany <| List.forall_mem_map.2 fun s _ => Prelude.lookup_holeName s

theorem free_holeBindings {name : String} (hname : bound name) :
    (env.insertMany (holeBindings types holes)).lookup name = none :=
  (env.sameBut_holeBindings types holes name (h.not_mem_holes (.inl hname) holes)).trans
    (h.free hname)

theorem gives_holeBindings {name : String} {t : Ty} (hgives : env.Gives name t) :
    (env.insertMany (holeBindings types holes)).Gives name t :=
  hgives.imp_left fun ⟨scheme, hlookup, hinst⟩ => ⟨scheme, (env.sameBut_holeBindings types holes
    name (h.not_mem_holes (.inr (hlookup ▸ rfl)) holes)).trans hlookup, hinst⟩

end Env.Open

section

variable {env : Env} {bound : String → Prop} {kind : BlockKind} {sock : String → SocketId}
  {tag : Tag} {inputs : String → Ty} {values : SocketId → Ty}

namespace HasType

variable (henv : env.Open bound) (hbinders : ∀ name ∈ kind.binders, bound name)
  (hvalues : ∀ slot ∈ kind.slots, values (sock slot) = inputs slot)

include henv hbinders hvalues

theorem hole {slot : String} (hslot : slot ∈ kind.slots) {env' : Env}
    (henv' : (env.insertMany (holeBindings values (kind.slots.map sock))).SameBut kind.binders
      env') : HasType env' (.hole (sock slot)) (inputs slot) := by
  have hnot : holeName (sock slot) ∉ kind.binders := fun hmem =>
    (henv.hole _).1 (hbinders _ hmem)
  refine .var _ ((henv' _ hnot).trans
    (env.lookup_holeBindings values (List.mem_map_of_mem hslot))) ?_
  exact hvalues slot hslot ▸ Scheme.instance_body _

theorem assemble_holes (hout : kind.hasOutput) (hvar : ∀ name, kind ≠ .variable name) {t : Ty}
    (hfits : kind.Fits env.Gives inputs t) :
    HasType (env.insertMany (holeBindings values (kind.slots.map sock)))
      (kind.assemble tag (kind.slots.map fun slot => .hole (sock slot))) t :=
  .assemble hout (fun name heq => (hvar name heq).elim)
    (fun name hname => (henv.prelude_holeBindings values _ name hname).imp_left fun hnot hmem =>
      hnot (hbinders name hmem))
    (hfits.imp fun _ _ => henv.gives_holeBindings values _)
    fun _ hslot _ henv' => .hole henv hbinders hvalues hslot henv'

end HasType

namespace Term.Noted

variable {b : BlockId} {t u : Ty} {notes : List (Tag × Ty)}

/-- The types that are noted for a term over holes are its own and those of the holes. -/
theorem of_holes (types : SocketId → Ty) (hprelude : Prelude.Within env bound)
    (hkind : kind.Unrepeated) (hruns : kind.operands?.isSome) (hholes : ∀ slot ∈ kind.slots,
      ¬ bound (holeName (sock slot)) ∧
        env.lookup (holeName (sock slot)) = some (.mono (types (sock slot))))
    (h : Noted env bound
      (kind.assemble (.block b) (kind.slots.map fun slot => .hole (sock slot))) t notes)
    (hu : notes.lookup tag = some u) : (tag = .block b ∧ u = t) ∨
      ∃ slot ∈ kind.slots, tag = .socket (sock slot) ∧ u = types (sock slot) := by
  have hhole : ∀ slot ∈ kind.slots, ∀ {t notes}, Noted env bound (.hole (sock slot)) t notes →
      notes = [(.socket (sock slot), types (sock slot))] := by
    intro slot hslot t notes hpart
    obtain ⟨hfree, hlookup⟩ := hholes slot hslot
    obtain ⟨huses, rfl⟩ := hpart.of_var
    obtain ⟨scheme, hlookup', hinst⟩ := huses.resolve_right hfree
    cases hlookup.symm.trans hlookup'
    rw [Scheme.instance_mono.1 hinst]
    rfl
  have hmem : ∀ {notes : List (Tag × Ty)}, notes.lookup tag = some u → (tag, u) ∈ notes := by
    intro notes hu
    obtain ⟨before, after, rfl, -⟩ := List.lookup_eq_some_iff.1 hu
    simp
  by_cases hfun : ∃ name params, kind = .function name params
  · obtain ⟨name, params, rfl⟩ := hfun
    obtain ⟨args, result, bodyNotes, -, -, hbody, hnotes⟩ := of_function h
    obtain rfl := hhole Slot.result (List.mem_singleton_self _) hbody
    have hresult : (tag, u) ∈ [(Tag.socket (sock Slot.result), types (sock Slot.result))] →
        ∃ slot ∈ (BlockKind.function name params).slots, tag = .socket (sock slot) ∧
          u = types (sock slot) := fun hu =>
      ⟨Slot.result, List.mem_singleton_self _, Prod.mk.inj (List.mem_singleton.1 hu)⟩
    rcases hnotes with rfl | rfl
    · exact .inr (hresult (hmem hu))
    · exact (List.mem_cons.1 (hmem hu)).imp (fun heq => Prod.mk.inj heq) hresult
  · have hout := BlockKind.hasOutput_of_operands? hruns hfun
    obtain ⟨typing, hparts, hbeside, -, hhead⟩ := of_assemble hprelude hkind hout h
    by_cases htag : tag = .block b
    · rw [htag, hhead] at hu
      exact .inl ⟨htag, (Option.some.inj hu).symm⟩
    · rw [hbeside tag htag] at hu
      obtain ⟨notes, hnotes, hu⟩ := List.mem_flatten.1 (hmem hu)
      simp only [List.map_map, List.mem_reverse, List.mem_map, Function.comp_apply] at hnotes
      obtain ⟨slot, hslot, rfl⟩ := hnotes
      rw [hhole slot hslot (hparts slot hslot)] at hu
      exact .inr ⟨slot, hslot, Prod.mk.inj (List.mem_singleton.1 hu)⟩

end Term.Noted

end

namespace Graph

variable {g : Graph} {b : BlockId} {p : Ports}

/-- A block that is alone is lowered to its own term over holes. -/
theorem exists_lower_of_alone (hsh : g.shape.Regular ∅) (h : g.shape.Alone b)
    (hp : g.shape.ports b = some p) (hruns : p.kind.operands?.isSome) :
    ∃ sock : String → SocketId,
      (∀ slot ∈ p.kind.slots, g.shape.site (sock slot) = some (b, .input slot)) ∧
      g.lower b = .ok ⟨p.kind.assemble (.block b) (p.kind.slots.map fun slot => .hole (sock slot)),
        p.kind.slots.map sock⟩ := by
  have hsock : ∀ slot, ∃ s, slot ∈ p.kind.slots → g.shape.site s = some (b, .input slot) :=
    fun slot => by
      by_cases hslot : slot ∈ p.kind.slots
      · exact (hsh.exists_site hp False.elim hslot).imp fun _ hs _ => hs
      · exact ⟨default, fun h => (hslot h).elim⟩
  choose sock hsock using hsock
  obtain ⟨block, hblock, rfl⟩ := shape_ports_eq_some.1 hp
  obtain ⟨l, hlower, hl⟩ := exists_lower_of_isSome hsh hblock hruns
  obtain ⟨block', hblock', -, part, hparts, rfl⟩ := lowerBlock_eq_ok.1 (lowerBlock_succ hl)
  cases hblock.symm.trans hblock'
  have hpart : ∀ slot ∈ block.kind.slots, part slot = ⟨.hole (sock slot), [sock slot]⟩ := by
    intro slot hslot
    have hfree := lowerSlot_eq_of_free hsh.toWired (hsock slot hslot)
      (h.guest_eq_none (hsock slot hslot)) (g.lowerBlock g.depth)
    exact Except.ok.inj ((hparts slot hslot).symm.trans hfree)
  have hterms : (block.kind.slots.map fun slot => (part slot).term) =
      block.kind.slots.map fun slot => .hole (sock slot) :=
    List.map_congr_left fun slot hslot => congrArg Lowered.term (hpart slot hslot)
  have hholes : (block.kind.slots.flatMap fun slot => (part slot).holes) =
      block.kind.slots.map sock :=
    (List.flatMap_congr fun slot hslot => congrArg Lowered.holes (hpart slot hslot)).trans
      (List.map_eq_flatMap ..).symm
  exact ⟨sock, hsock, hlower.trans (congrArg Except.ok (congrArg₂ Lowered.mk
    (congrArg _ hterms) hholes))⟩

/-- The types on the block are those of the layout. -/
structure LaidOut (g : Graph) (b : BlockId) (layout : Layout) : Prop where
  input : ∀ {s slot}, g.shape.site s = some (b, .input slot) → g.tyAt s = some (layout.input slot)
  output : ∀ {s}, g.shape.site s = some (b, .output) → g.tyAt s = layout.output
  param : ∀ name, g.keptAt (.param b name) = layout.params[name]?

/-- What is found for a block by itself; a type for the whole and those on its inputs are an
instance of it. -/
structure Finds (g : Graph) (b : BlockId) (q : String → Ty) (whole : Ty)
    (types : Tag → Option Ty) : Prop where
  tags : ∀ {tag u}, types tag = some u → (tag = .block b ∧ u.bind q = whole) ∨
    ∃ s slot, g.shape.site s = some (b, .input slot) ∧ tag = .socket s ∧
      g.tyAt s = some (u.bind q)
  curried : ∀ {p name params u}, g.shape.ports b = some p → p.kind = .function name params →
    types (.block b) = some u →
      ∃ (args : List Ty) (result : Ty), args.length = params.length ∧ u = .curried args result

section

variable (hsh : g.shape.Regular ∅) (hp : g.shape.ports b = some p)

include hsh hp

/-- What is kept of what is found for a block that is alone are the types that are there. -/
theorem Finds.instances {q : String → Ty} {whole : Ty} {types : Std.ExtTreeMap Tag Ty}
    (h : g.Finds b q whole fun tag => types[tag]?) (halone : g.shape.Alone b)
    {scope : String → Prop} (hq : ∀ v, scope v → q v = .var v)
    (hscope : ∀ {place t}, g.keptAt place = some t → t.Over scope)
    (hwhole : ∀ u, u.bind q = whole → types[Tag.block b]? = some u →
      ∀ entry ∈ g.placesOf (.block b) u, g.keptAt entry.1 = some (entry.2.bind q))
    (members : BlockSet) : g.Instances scope q (g.placed types members) := by
  have hown : ∀ entry ∈ g.ownPlaces types,
      g.shape.Hosts b entry.1 ∧ g.keptAt entry.1 = some (entry.2.bind q) := by
    intro entry hentry
    obtain ⟨⟨tag, u⟩, htag, hentry⟩ := List.mem_flatMap.1 hentry
    have hu := Std.ExtTreeMap.mem_toList_iff_getElem?_eq_some.1 htag
    have htagged : g.shape.Tagged b (.block b) := ⟨rfl, p, hp⟩
    rcases h.tags hu with ⟨rfl, hu'⟩ | ⟨s, slot, hs, rfl, hty⟩
    · exact ⟨(exists_places_eq hsh htagged u).2 entry hentry, hwhole u hu' hu entry hentry⟩
    · rw [placesOf_socket hs, List.mem_singleton] at hentry
      subst hentry
      exact ⟨⟨_, hs⟩, hty⟩
  refine ⟨hq, fun entry hentry => ?_⟩
  have hkept : g.keptAt entry.1 = some (entry.2.bind q) := by
    rcases List.mem_append.1 hentry with hentry | hentry
    · exact (hown entry hentry).2
    · -- nothing is plugged in that would follow
      obtain ⟨output, input, c, slot, -, hplace, -, -, hpeer⟩ := exists_of_mem_followers hentry
      obtain ⟨role, hsite⟩ := (hown _ hplace).1
      have hback := hsh.symm hpeer
      rw [halone.free hsite] at hback
      cases hback
  exact ⟨hkept, hscope hkept⟩

variable {layout : Layout} (hlaid : g.LaidOut b layout)

include hlaid

theorem LaidOut.kept_output {q : String → Ty} {u t : Ty} (hout : p.kind.hasOutput)
    (houtput : layout.output = some t) (hu : u.bind q = t) :
    ∀ entry ∈ g.placesOf (.block b) u, g.keptAt entry.1 = some (entry.2.bind q) := by
  obtain ⟨s, hs⟩ := Option.isSome_iff_exists.1 (((hsh.sound hp).output).trans hout)
  have hsite := (hsh.lists hp).output hs
  rw [placesOf_output hsh.toWired hsite]
  refine List.forall_mem_singleton.2 ((hlaid.output hsite).trans ?_)
  rw [houtput, hu]

theorem LaidOut.kept_function {name : String} {params : List String}
    (hkind : p.kind = .function name params) {q : String → Ty} {args : List Ty} {result : Ty}
    (hlength : args.length = params.length) {values : String → Ty}
    (hparams : ∀ name ∈ params, layout.params[name]? = some (values name))
    (hu : (Ty.curried args result).bind q =
      .curried (params.map values) (layout.input Slot.result)) :
    ∀ entry ∈ g.placesOf (.block b) (.curried args result),
      g.keptAt entry.1 = some (entry.2.bind q) := by
  rw [Ty.bind_curried, Ty.curried_inj (by simp [hlength])] at hu
  obtain ⟨hargs, hresult⟩ := hu
  have hzip : List.Forall₂ (fun name (arg : Ty) => arg.bind q = values name) params args := by
    have heq : List.Forall₂ (· = ·) (args.map (Ty.bind q)) (params.map values) :=
      List.forall₂_eq_eq_eq ▸ hargs
    rw [List.forall₂_map_left_iff, List.forall₂_map_right_iff] at heq
    exact heq.flip
  obtain ⟨block, hblock, rfl⟩ := shape_ports_eq_some.1 hp
  have hsound := (hsh.sound hp).output
  dsimp only at hkind hsound
  have hnone : block.output = none := by
    rw [hkind] at hsound
    exact Option.not_isSome_iff_eq_none.1 (hsound ▸ Bool.false_ne_true)
  have hslot : Slot.result ∈ (Ports.mk block.kind block.output block.inputs).kind.slots :=
    hkind ▸ List.mem_singleton_self _
  obtain ⟨s, hs⟩ := hsh.exists_site hp False.elim hslot
  have hplaces : g.placesOf (.block b) (.curried args result) =
      params.zipWith (fun name arg => (Place.param b name, arg)) args ++
        [(.socket s, result)] := by
    simp only [placesOf, places, block_eq_ok.2 hblock, bind, Except.bind, hnone, hkind,
      BlockKind.function?, (inputNamed_eq_ok hsh.toWired hp).2 hs, ← hlength, Ty.uncurry_curried]
    rfl
  rw [hplaces, List.forall_mem_append, List.forall_mem_singleton,
    ← List.map_uncurry_zip_eq_zipWith, List.forall_mem_map]
  refine ⟨fun entry hentry => ?_, (hlaid.input hs).trans (congrArg some hresult.symm)⟩
  obtain ⟨name, arg⟩ := entry
  refine (hlaid.param name).trans ((hparams name (List.of_mem_zip hentry).1).trans ?_)
  exact congrArg some ((List.forall₂_iff_zip.1 hzip).2 hentry).symm

end

end Graph

namespace FunctionGroup

/-- The inference of a function that calls none of those that are inferred with it. -/
theorem run_infer_singleton {env : Env} {m : Member} {pool : VarPool} {s : Subst}
    {st : InferState} (h : (inferBody (env.insert m.name (.mono (.var pool.allocate.1))) m
      (.var pool.allocate.1) .empty).run ⟨pool.allocate.2, []⟩ = (.ok s, st)) :
    let r := (infer env [m]).run (ofPool pool)
    r.1.errors = [] ∧ r.1.types = resolve s st.notes := by
  have hbodies : (inferBodies (env.insert m.name (.mono (.var pool.allocate.1)))
      [(m, .var pool.allocate.1)] .empty).run ⟨pool.allocate.2, []⟩ = ((s, [none]), st) := by
    rw [inferBodies, StateT.run_bind, run_attempt_eq_ok.2 h]
    rfl
  have hselves : ([m].mapM fun _ => FunctionGroup.freshVar).run (ofPool pool) =
      ([.var pool.allocate.1], ⟨pool.allocate.2, []⟩) := rfl
  rw [run_infer_eq, hselves]
  have hinner : env.insertMany (([m].map (·.name)).zip
      ([Ty.var pool.allocate.1].map .mono)) =
        env.insert m.name (.mono (.var pool.allocate.1)) := rfl
  dsimp only
  rw [hinner, List.zip_cons_cons, List.zip_nil_right, hbodies]
  exact ⟨rfl, rfl⟩

end FunctionGroup

theorem Env.Closed.relates {env : Env} (h : env.Closed) (r : String → Ty) :
    env.Relates (Scheme.AtMost r) env := by
  intro name
  cases hlookup : env.lookup name with
  | none => exact .none
  | some scheme =>
      exact .some ⟨fun t ht => ht.congr fun v hv => (h name scheme hlookup v hv).elim,
        fun v hv => (h name scheme hlookup v hv).elim⟩

namespace Graph

theorem bindersIn_lower_binds {g : Graph} {b : BlockId} {l : Lowered} (hlower : g.lower b = .ok l) :
    l.term.BindersIn g.shape.Binds :=
  bindersIn_lower (fun hb _ hname => ⟨_, _, shape_ports_eq_some.2 ⟨_, hb, rfl⟩, hname⟩) hlower

variable {g : Graph} {b : BlockId} {p : Ports} {env : Env} {pool : VarPool} {layout : Layout}
  (hsh : g.shape.Regular ∅) (hnames : g.shape.NamesApart) (hground : g.Ground)
  (halone : g.shape.Alone b) (hp : g.shape.ports b = some p) (hpool : pool.Distinct)

section

variable {l : Lowered} {sock : String → SocketId}
  (hsock : ∀ slot ∈ p.kind.slots, g.shape.site (sock slot) = some (b, .input slot))
  (hlower : g.lower b = .ok l)
  (hl : l = ⟨p.kind.assemble (.block b) (p.kind.slots.map fun slot => .hole (sock slot)),
    p.kind.slots.map sock⟩)

include hsh hp hsock hl

theorem nodup_holes : l.holes.Nodup := by
  subst hl
  refine (hsh.sound hp).unrepeated.nodup_slots.map_on fun slot hslot slot' hslot' heq => ?_
  have hsite := hsock slot hslot
  rw [heq, hsock slot' hslot'] at hsite
  cases hsite
  rfl

include hground hlower

/-- What is found for a block in a run of its term with open holes. -/
theorem exists_finds (hruns : p.kind.operands?.isSome) {bound : String → Prop}
    (hbinders : l.term.BindersIn bound) (henv : env.Open bound) {scope : String → Prop}
    (hover : env.Over scope) {types : SocketId → Ty} {st st₁ st₂ : InferState} {s σ : Subst}
    {t : Ty} (h : l.Opens env types st st₁ st₂ s t) (hσ : σ.Absorbs s) {q : String → Ty}
    (hholes : ∀ hole ∈ l.holes, g.tyAt hole = some ((σ.apply (types hole)).bind q)) :
    ∃ notes, st₂.notes = notes ++ st.notes ∧
      g.Finds b q ((σ.apply t).bind q) fun tag => (σ.applyNotes notes).lookup tag := by
  have hlits := litsGround_lower hground hlower
  have hknown : (env.insertMany (holeBindings types l.holes)).Over fun _ => True :=
    (hover.mono fun _ _ => trivial).insertMany_mono
      (List.forall_mem_map.2 fun hole _ => ⟨_, rfl, fun _ _ => trivial⟩)
  obtain ⟨notes, hnotes, hnoted⟩ := Term.exists_noted h.distinct h.guarded hlits hbinders
    (hknown.tracks (henv.free_holeBindings types l.holes)) h.term
  replace hnoted := hnoted σ hσ
  rw [h.notes] at hnotes
  subst hl
  have hof : ∀ {tag u}, (σ.applyNotes notes).lookup tag = some u →
      (tag = .block b ∧ u = σ.apply t) ∨ ∃ slot ∈ p.kind.slots, tag = .socket (sock slot) ∧
        u = σ.apply (types (sock slot)) := fun hu =>
    hnoted.of_holes (fun hole => σ.apply (types hole))
      ((henv.prelude_holeBindings types _).apply σ) (hsh.sound hp).unrepeated hruns
      (fun slot hslot => ⟨(henv.hole _).1, by
        rw [Env.lookup_apply, env.lookup_holeBindings types (List.mem_map_of_mem hslot),
          Option.map_some, Subst.applyScheme_mono]⟩) hu
  refine ⟨notes, hnotes, fun hu => (hof hu).imp (fun ⟨htag, hu⟩ => ⟨htag, hu ▸ rfl⟩) ?_,
    fun {p' name params u} hp' hkind hu => ?_⟩
  · rintro ⟨slot, hslot, rfl, rfl⟩
    exact ⟨_, slot, hsock slot hslot, rfl, hholes _ (List.mem_map_of_mem hslot)⟩
  · cases hp.symm.trans hp'
    rcases hof hu with ⟨-, rfl⟩ | ⟨_, _, htag, -⟩
    · rw [hkind] at hnoted
      obtain ⟨args, result, -, hlength, heq, -⟩ := hnoted.of_function
      exact ⟨args, result, hlength, heq⟩
    · cases htag

end

include hsh hnames hground halone hp hpool

omit hsh hnames hground halone hpool in
theorem hasType_function (henv : env.Open g.shape.Binds) {name : String} {params : List String}
    (hkind : p.kind = .function name params) {sock : String → SocketId} {values : SocketId → Ty}
    (hvalues : ∀ slot ∈ p.kind.slots, values (sock slot) = layout.input slot) (args : List Ty)
    (hlength : args.length = params.length) :
    HasType (env.insertMany (holeBindings values (p.kind.slots.map sock)))
      (p.kind.assemble (.block b) (p.kind.slots.map fun slot => .hole (sock slot)))
      (.curried args (layout.input Slot.result)) := by
  have hpart := fun env' => @HasType.hole _ _ _ sock layout.input values henv
    (fun name hname => ⟨b, p, hp, hname⟩) hvalues Slot.result
    (hkind ▸ List.mem_singleton_self _) env'
  rw [hkind] at hpart ⊢
  exact .assemble_function hlength hpart

/-- Inference of a new block with an output finds what the types of its layout are an instance
of. -/
theorem exists_finds_section (henv : env.Serves g.shape.Local) (hout : p.kind.hasOutput)
    (hvar : ∀ name, p.kind ≠ .variable name) (hlaid : g.LaidOut b layout) {u : Ty}
    (hfits : p.kind.Fits env.Gives layout.input u) :
    ∃ l s st q, g.lower b = .ok l ∧ (l.inferSection env).run (ofPool pool) = (.ok s, st) ∧
      (∀ v, pool.Uses v → q v = .var v) ∧
      g.Finds b q u fun tag => (resolve s st.notes)[tag]? := by
  have hruns := BlockKind.operands?_isSome_of_hasOutput hout
  obtain ⟨sock, hsock, hlower⟩ := exists_lower_of_alone hsh halone hp hruns
  have hlits := litsGround_lower hground hlower
  have hopen := henv.open hnames
  let values : SocketId → Ty := fun s => (g.tyAt s).getD default
  have hvalues : ∀ slot ∈ p.kind.slots, values (sock slot) = layout.input slot :=
    fun slot hslot => Option.getD_eq_iff.2 (.inl (hlaid.input (hsock slot hslot)))
  obtain ⟨types, st₁, st₂, s, t, hopens, himage, q, ht, hholes, hold⟩ :=
    Lowered.exists_opens (ofPool pool) (.of_closed henv.closed _)
      (henv.closed.relates .var) hpool hlits (nodup_holes hsh hp hsock rfl)
      (HasType.assemble_holes hopen
        (fun name hname => ⟨b, p, hp, hname⟩) hvalues hout hvar hfits)
  obtain ⟨hs, hfixes⟩ :=
    (Term.infers_of_run hopens.term).idempotent hopens.distinct hopens.guarded hlits
  obtain ⟨notes, hnotes, hfinds⟩ := exists_finds hsh hground hp hsock hlower rfl hruns
    (bindersIn_lower_binds hlower) hopen (.of_closed henv.closed pool.Uses) hopens hs.absorbs
    (List.forall_mem_map.2 fun slot hslot => by
      rw [hholes _ (List.mem_map_of_mem hslot), hlaid.input (hsock slot hslot),
        hvalues slot hslot])
  refine ⟨_, s, st₂, q, hlower, hopens.run_inferSection, fun v hv => ?_, ?_⟩
  · have hq := hold v hv
    rwa [himage v hv fun ⟨name, scheme, hlookup, hfree⟩ =>
      henv.closed name scheme hlookup v hfree] at hq
  · rw [Subst.apply_of_fixes hfixes fun _ => id, ht] at hfinds
    simp only [getElem?_resolve, hnotes]
    exact (List.append_nil notes).symm ▸ hfinds

/-- A new function is inferred without an error, and the types of its layout are an instance of
what is found. -/
theorem exists_finds_function (henv : env.Serves g.shape.Local) {name : String}
    {params : List String} (hkind : p.kind = .function name params) (hlaid : g.LaidOut b layout)
    (args : List Ty) (hlength : args.length = params.length) :
    let r := (FunctionGroup.infer env [⟨b, name, g.lower b⟩]).run (ofPool pool)
    r.1.errors = [] ∧ ∃ q : String → Ty, (∀ v, pool.Uses v → q v = .var v) ∧
      g.Finds b q (.curried args (layout.input Slot.result)) fun tag => r.1.types[tag]? := by
  have hdefines : g.shape.Defines b name := ⟨p, params, hp, hkind⟩
  have hruns : p.kind.operands?.isSome := hkind ▸ rfl
  obtain ⟨sock, hsock, hlower⟩ := exists_lower_of_alone hsh halone hp hruns
  have hlits := litsGround_lower hground hlower
  have hopens : ∀ t : Ty, (env.insert name (.mono t)).Open g.shape.Binds := fun t =>
    (henv.open hnames).insert (fun hbinds => (hnames.binder hbinds).2.2 b hdefines)
      (hnames.function hdefines).1 _
  let whole : Ty := .curried args (layout.input Slot.result)
  let self : Ty := .var pool.allocate.1
  have hissues := VarPool.allocate_issues hpool
  have hover : (env.insert name (.mono self)).Over pool.allocate.2.Uses :=
    (Env.Over.of_closed henv.closed _).insert_mono name (.var hissues.used)
  -- what the function itself is called with stands for the type of its layout
  obtain ⟨r, hr, hold⟩ := hissues.exists_extension .var whole
  have hrelates : (env.insert name (.mono self)).Relates (Scheme.AtMost r)
      (env.insert name (.mono whole)) := by
    refine (henv.closed.relates r).insert name ?_
    have hself := Scheme.atMost_mono r self
    rwa [show self.bind r = whole from hr] at hself
  let values : SocketId → Ty := fun s => (g.tyAt s).getD default
  have hvalues : ∀ slot ∈ p.kind.slots, values (sock slot) = layout.input slot :=
    fun slot hslot => Option.getD_eq_iff.2 (.inl (hlaid.input (hsock slot hslot)))
  have htyped := hasType_function hp (hopens whole) hkind hvalues args hlength
  obtain ⟨types, st₁, st₂, s, t, hopen, himage, q, ht, hholes, hold'⟩ :=
    Lowered.exists_opens ⟨pool.allocate.2, []⟩ hover hrelates hissues.distinct hlits
      (nodup_holes hsh hp hsock rfl) htyped
  obtain ⟨-, hfixes⟩ :=
    (Term.infers_of_run hopen.term).idempotent hopen.distinct hopen.guarded hlits
  have hself : (s.apply self).bind q = whole := (hold' _ hissues.used).trans hr
  obtain ⟨σ, hrun, hidem, hσ, hbind⟩ :=
    hopen.exists_inferAs hover hissues.distinct hlits b (ht.trans hself.symm)
  obtain ⟨notes, hnotes, hfinds⟩ := exists_finds hsh hground hp hsock hlower rfl hruns
    (bindersIn_lower_binds hlower) (hopens self) hover hopen hσ (q := q)
    (List.forall_mem_map.2 fun slot hslot => by
      rw [hbind, hholes _ (List.mem_map_of_mem hslot), hlaid.input (hsock slot hslot),
        hvalues slot hslot])
  rw [hbind, Subst.apply_of_fixes hfixes fun _ => id, ht] at hfinds
  obtain ⟨herrors, htypes⟩ := FunctionGroup.run_infer_singleton (m := ⟨b, name, g.lower b⟩)
    (show (FunctionGroup.inferBody _ _ self .empty).run _ = (.ok σ, st₂) by
      rw [FunctionGroup.inferBody, hlower]
      exact hrun)
  refine ⟨herrors, q, fun v hv => ?_, ?_⟩
  · have hused : pool.allocate.2.isUsed v := hissues.keeps hv
    have hq := hold' v hused
    rw [hold v hv, himage v hused] at hq
    · exact hq
    · rintro hfree
      rcases Env.free_insert hfree with hfree | ⟨other, scheme, hlookup, hfree⟩
      · obtain rfl := Ty.mem_vars_var.1 (Scheme.free_mono.1 hfree)
        exact hissues.ne_of_used hv rfl
      · exact henv.closed other scheme hlookup v hfree
  · simp only [htypes, getElem?_resolve, hnotes]
    exact (List.append_nil notes).symm ▸ hfinds

end Graph

end Plugboard
