import Plugboard.Proofs.BlockTypes
import Plugboard.Proofs.InferenceCompletes

/-!
# The types on the blocks of a tree

From a typing of the term that a tree is lowered to one reads off, for every block in the tree, how
the types of what fills its inputs fit together with its own. The notes of a block are kept apart
by their tags: nothing is below two inputs of one block.
-/

namespace Plugboard

open Relation

namespace Shape

variable {sh : Shape} {b c d : BlockId} {s s' : SocketId} {slot slot' : String} {tag : Tag}

/-- The tag is that of the block or of a hole on it. -/
def Marks (sh : Shape) (b : BlockId) : Tag → Prop
  | .block c => c = b ∧ sh.Live b
  | .socket s => sh.guest s = none ∧ ∃ slot, sh.site s = some (b, .input slot)

theorem Marks.unique (h : sh.Marks b tag) (h' : sh.Marks c tag) : b = c := by
  cases tag with
  | block d => exact h.1.symm.trans h'.1
  | socket s =>
      obtain ⟨-, slot, hs⟩ := h
      obtain ⟨-, slot', hs'⟩ := h'
      exact (Prod.mk.inj (Option.some.inj (hs.symm.trans hs'))).1

/-- The tag of what fills an input: the block that is plugged in, or the hole that is there. -/
def filling (sh : Shape) (s : SocketId) : Tag :=
  match sh.guest s with
  | some c => .block c
  | none => .socket s

theorem filling_of_guest (h : sh.guest s = some c) : sh.filling s = .block c := by
  rw [filling, h]

theorem filling_of_free (h : sh.guest s = none) : sh.filling s = .socket s := by
  rw [filling, h]

/-- The tag is one in what fills an input. -/
def Under (sh : Shape) (s : SocketId) (tag : Tag) : Prop :=
  (sh.guest s = none ∧ tag = .socket s) ∨
    ∃ c, sh.guest s = some c ∧ ∃ d, sh.Below d c ∧ sh.Marks d tag

section

variable (h : sh.Wired) (hacyclic : sh.Acyclic)

include h

include hacyclic

theorem Wired.under_ne_block (hs : sh.site s = some (b, .input slot)) (htag : sh.Under s tag) :
    tag ≠ .block b := by
  rintro rfl
  rcases htag with ⟨-, htag⟩ | ⟨c, hc, d, hd, rfl, -⟩
  · cases htag
  · exact hacyclic b (.tail' hd (h.plugged_of_guest hs hc))

/-- A block is not below two that are plugged into the same one. -/
theorem Wired.eq_of_below (hc : sh.Below d c) (hb : sh.Plugged c b) {c' : BlockId}
    (hc' : sh.Below d c') (hb' : sh.Plugged c' b) : c = c' := by
  have hright : Relator.RightUnique sh.Plugged := fun _ _ _ => h.plugged_unique
  have hnot : ∀ {c c'}, sh.Plugged c b → sh.Plugged c' b → sh.Below c c' → c = c' := by
    intro c c' hb hb' hbelow
    rcases ReflTransGen.cases_head hbelow with rfl | ⟨e, he, hbelow⟩
    · rfl
    · obtain rfl := h.plugged_unique hb he
      exact (hacyclic b (.tail' hbelow hb')).elim
  rcases ReflTransGen.total_of_right_unique hright hc hc' with hbelow | hbelow
  · exact hnot hb hb' hbelow
  · exact (hnot hb' hb hbelow).symm

theorem Wired.under_unique (hs : sh.site s = some (b, .input slot))
    (hs' : sh.site s' = some (b, .input slot')) (htag : sh.Under s tag)
    (htag' : sh.Under s' tag) : s = s' := by
  have hhole : ∀ {s s' slot slot' c d}, sh.site s = some (b, .input slot) →
      sh.site s' = some (b, .input slot') → sh.guest s' = some c → sh.Below d c →
      ¬ sh.Marks d (.socket s) := by
    rintro s s' slot slot' c d hs hs' hc hd ⟨-, _, hsite⟩
    rw [hs] at hsite
    cases hsite
    exact hacyclic b (.tail' hd (h.plugged_of_guest hs' hc))
  rcases htag with ⟨-, rfl⟩ | ⟨c, hc, d, hd, hmarks⟩ <;>
    rcases htag' with ⟨-, htag'⟩ | ⟨c', hc', d', hd', hmarks'⟩
  · exact Tag.socket.inj htag'
  · exact (hhole hs hs' hc' hd' hmarks').elim
  · subst htag'
    exact (hhole hs' hs hc hd hmarks).elim
  · obtain rfl := hmarks.unique hmarks'
    obtain rfl := h.eq_of_below hacyclic hd (h.plugged_of_guest hs hc) hd'
      (h.plugged_of_guest hs' hc')
    exact h.guest_unique hs hs' hc hc'

end

/-- The types of the tags fit together on a block, with `inputs` for what fills its slots. -/
structure Agrees (sh : Shape) (uses : String → Ty → Prop) (types : Tag → Option Ty)
    (b : BlockId) (p : Ports) (inputs : String → Ty) : Prop where
  filled : ∀ {slot s}, sh.site s = some (b, .input slot) →
    types (sh.filling s) = some (inputs slot)
  fits : p.kind.hasOutput → ∃ t, types (.block b) = some t ∧ p.kind.Fits uses inputs t
  curried : ∀ {name params t}, p.kind = .function name params → types (.block b) = some t →
    ∃ args : List Ty, args.length = params.length ∧ t = .curried args (inputs Slot.result)

/-- The types are those of tags in a tree, and they fit together on all of its blocks. -/
structure Typing (sh : Shape) (uses : String → Ty → Prop) (tree : Set BlockId)
    (types : Tag → Option Ty) : Prop where
  marked : ∀ {tag t}, types tag = some t → ∃ b ∈ tree, sh.Marks b tag
  agrees : ∀ b ∈ tree, ∀ {p}, sh.ports b = some p → ∃ inputs, sh.Agrees uses types b p inputs

/-- What the types of a block's own tags are is all that matters for the block. -/
theorem Agrees.congr {uses : String → Ty → Prop} {types types' : Tag → Option Ty} {p : Ports}
    {inputs : String → Ty} (h : sh.Agrees uses types b p inputs)
    (hblock : types' (.block b) = types (.block b))
    (hfilling : ∀ {slot s}, sh.site s = some (b, .input slot) →
      types' (sh.filling s) = types (sh.filling s)) : sh.Agrees uses types' b p inputs where
  filled hs := (hfilling hs).trans (h.filled hs)
  fits hout := by
    rw [hblock]
    exact h.fits hout
  curried hkind ht := h.curried hkind (hblock ▸ ht)

/-- What is noted for what fills an input: its type, and types for the tree that is plugged in. -/
structure Fills (sh : Shape) (uses : String → Ty → Prop) (s : SocketId) (t : Ty)
    (notes : List (Tag × Ty)) : Prop where
  filled : notes.lookup (sh.filling s) = some t
  under : ∀ n ∈ notes, sh.Under s n.1
  tree : ∀ {c}, sh.guest s = some c →
    sh.Typing uses {d | sh.Below d c} fun tag => notes.lookup tag

theorem under_of_below (hc : sh.guest s = some c) (hd : sh.Below d c) (hlive : sh.Live d) :
    sh.Under s (.block d) :=
  .inr ⟨c, hc, d, hd, rfl, hlive⟩

/-- With a block below an input, what fills the inputs of the block is below it as well. -/
theorem Wired.under_filling (h : sh.Wired) (hc : sh.guest s = some c) (hd : sh.Below d c)
    (hs' : sh.site s' = some (d, .input slot')) : sh.Under s (sh.filling s') := by
  cases hguest : sh.guest s' with
  | none => exact filling_of_free hguest ▸ .inr ⟨c, hc, d, hd, hguest, slot', hs'⟩
  | some e =>
      rw [filling_of_guest hguest]
      exact under_of_below hc (.head (h.plugged_of_guest hs' hguest) hd) (h.live_of_guest hguest)

end Shape

namespace Term.Noted

open BlockKind

variable {env : Env} {bound : String → Prop} {tag : Tag} {t : Ty} {notes : List (Tag × Ty)}

/-- Only tags in the term are noted. -/
theorem tagsIn {marked : Tag → Prop} {e : Term} (h : Noted env bound e t notes)
    (he : e.TagsIn marked) : ∀ n ∈ notes, marked n.1 := by
  have hnoted : ∀ {tag : Option Tag} {t : Ty} {notes : List (Tag × Ty)},
      Term.Marked marked tag → (∀ n ∈ notes, marked n.1) →
      ∀ n ∈ InferM.noted tag t notes, marked n.1 := by
    intro tag t notes htag hnotes n hn
    rcases List.mem_append.1 hn with hn | hn
    · obtain ⟨tag', htag', rfl⟩ := List.mem_map.1 hn
      exact htag tag' (Option.mem_toList.1 htag')
    · exact hnotes n hn
  have hnil : ∀ n ∈ ([] : List (Tag × Ty)), marked n.1 := fun n hn => (List.not_mem_nil hn).elim
  have happend : ∀ {notes₁ notes₂ : List (Tag × Ty)}, (∀ n ∈ notes₁, marked n.1) →
      (∀ n ∈ notes₂, marked n.1) → ∀ n ∈ notes₂ ++ notes₁, marked n.1 := fun h₁ h₂ n hn =>
    (List.mem_append.1 hn).elim (h₂ n) (h₁ n)
  induction h with
  | var tag _ _ => exact hnoted he hnil
  | bound _ tag _ => exact hnoted he hnil
  | lit _ tag => exact hnoted he hnil
  | lam _ tag _ ih => exact hnoted he.1 (ih he.2)
  | app tag _ _ ihf iha => exact hnoted he.1 (happend (ihf he.2.1) (iha he.2.2))
  | letIn tag _ _ ihv ihb => exact hnoted he.1 (happend (ihv he.2.1) (ihb he.2.2))

theorem lookup_joined {α : Type} {typing : α → Ty × List (Tag × Ty)} {xs : List α} {x : α}
    (hx : x ∈ xs) (hothers : ∀ y ∈ xs, y ≠ x → (typing y).2.lookup tag = none) :
    (joined (xs.map typing)).lookup tag = (typing x).2.lookup tag := by
  classical
  induction xs with
  | nil => exact (List.not_mem_nil hx).elim
  | cons y ys ih =>
      rw [List.forall_mem_cons] at hothers
      rw [List.map_cons, joined_cons, List.lookup_append]
      by_cases hys : x ∈ ys
      · rw [ih hys hothers.2]
        by_cases hy : y = x
        · rw [hy, Option.or_self]
        · rw [hothers.1 hy, Option.or_none]
      · obtain rfl := (List.mem_cons.1 hx).resolve_right hys
        have hnone : (joined (ys.map typing)).lookup tag = none := by
          refine List.lookup_eq_none_iff.2 fun n hn => ?_
          obtain ⟨notes, hnotes, hn⟩ := List.mem_flatten.1 hn
          simp only [List.map_map, List.mem_reverse, List.mem_map, Function.comp_apply] at hnotes
          obtain ⟨y, hy, rfl⟩ := hnotes
          exact List.lookup_eq_none_iff.1 (hothers.2 y hy fun heq => hys (heq ▸ hy)) n hn
        rw [hnone, Option.none_or]

/-- The type of a function is one from types for its parameters to that of its result. -/
theorem of_function {name : String} {params : List String} {body : Term}
    (h : Noted env bound ((BlockKind.function name params).assemble tag [body]) t notes) :
    ∃ (args : List Ty) (result : Ty) (bodyNotes : List (Tag × Ty)),
      args.length = params.length ∧ t = .curried args result ∧
      Noted env bound body result bodyNotes ∧
      (notes = bodyNotes ∨ notes = (tag, t) :: bodyNotes) := by
  cases params with
  | nil => exact ⟨[], t, notes, rfl, rfl, h, .inl rfl⟩
  | cons param params =>
      cases h with
      | @lam _ _ u restNotes a _ hbody =>
          obtain ⟨args, result, hlength, rfl, hresult⟩ := of_lamAll hbody
          exact ⟨a :: args, result, restNotes, by simp [hlength], rfl, hresult, .inr rfl⟩

/-- What a typing of a block's term says of the block, whether it is a function or not. -/
theorem exists_parts (hprelude : Prelude.Within env bound) {kind : BlockKind}
    (hkind : kind.Unrepeated) (hruns : kind.operands?.isSome) {part : String → Term}
    (h : Noted env bound (kind.assemble tag (kind.slots.map part)) t notes) :
    ∃ typing : String → Ty × List (Tag × Ty),
      (∀ slot ∈ kind.slots, Noted env bound (part slot) (typing slot).1 (typing slot).2) ∧
      tag.Beside notes (joined (kind.slots.map typing)) ∧
      (kind.hasOutput → kind.Fits (env.Uses bound) (fun slot => (typing slot).1) t ∧
        notes.lookup tag = some t) ∧
      ∀ {name params u}, kind = .function name params → notes.lookup tag = some u →
        (joined (kind.slots.map typing)).lookup tag = some u ∨
          ∃ args : List Ty, args.length = params.length ∧
            u = .curried args (typing Slot.result).1 := by
  by_cases hfun : ∃ name params, kind = .function name params
  · obtain ⟨name, params, rfl⟩ := hfun
    obtain ⟨args, result, bodyNotes, hlength, rfl, hbody, hnotes⟩ := of_function h
    have hjoined : joined ((BlockKind.function name params).slots.map
        fun _ => (result, bodyNotes)) = bodyNotes := by simp [slots, joined]
    refine ⟨fun _ => (result, bodyNotes), List.forall_mem_singleton.2 hbody, ?_,
      fun hout => Bool.noConfusion hout, fun {_ _ u} hkind hu => ?_⟩
    · rw [hjoined]
      rcases hnotes with rfl | rfl
      · exact .refl _ _
      · exact .cons _ _
    · obtain ⟨rfl, rfl⟩ := BlockKind.function.inj hkind
      rw [hjoined]
      rcases hnotes with rfl | rfl
      · exact .inl hu
      · rw [List.lookup_cons_self] at hu
        cases hu
        exact .inr ⟨args, hlength, rfl⟩
  · have hout := BlockKind.hasOutput_of_operands? hruns hfun
    obtain ⟨typing, hparts, hbeside, hfits⟩ := of_assemble hprelude hkind hout h
    exact ⟨typing, hparts, hbeside, fun _ => hfits, fun hkind _ => (hfun ⟨_, _, hkind⟩).elim⟩

end Term.Noted

theorem BlockKind.flatMap_slots_eq {kind : BlockKind} {runs : List SlotRun}
    (h : kind.operands? = some runs) : runs.flatMap SlotRun.slots = kind.slots := by
  cases kind <;> cases h <;> simp [slots, SlotRun.slots]

namespace Graph

open Shape

variable {g : Graph} {b : BlockId} {env : Env} {bound : String → Prop}

/-- What is read in runs is read slot by slot. -/
theorem map_flatten_mapM_read {ε α : Type} (f : String → Except ε α) (runs : List SlotRun) :
    (runs.mapM (SlotRun.read f)).map List.flatten = (runs.flatMap SlotRun.slots).mapM f := by
  induction runs with
  | nil => rfl
  | cons run runs ih =>
      rw [List.mapM_cons, List.flatMap_cons, List.mapM_append, ← ih, SlotRun.read_eq_mapM]
      cases run.slots.mapM f with
      | error e => rfl
      | ok first => cases runs.mapM (SlotRun.read f) <;> rfl

/-- A block's term is put together from those of its slots. -/
theorem lowerBlock_eq_ok {fuel : Nat} {l : Lowered} :
    g.lowerBlock (fuel + 1) b = .ok l ↔
      ∃ block, g.blocks[b]? = some block ∧ block.kind.operands?.isSome ∧
        ∃ part : String → Lowered,
          (∀ slot ∈ block.kind.slots, g.lowerSlot (g.lowerBlock fuel) b slot = .ok (part slot)) ∧
          l = ⟨block.kind.assemble (.block b) (block.kind.slots.map fun slot => (part slot).term),
            block.kind.slots.flatMap fun slot => (part slot).holes⟩ := by
  have : Nonempty Lowered := ⟨⟨default, []⟩⟩
  have hread : ∀ {block : Block} {runs : List SlotRun}, block.kind.operands? = some runs →
      ((runs.mapM (SlotRun.read (g.lowerSlot (g.lowerBlock fuel) b))).map List.flatten =
        block.kind.slots.mapM (g.lowerSlot (g.lowerBlock fuel) b)) := fun hruns => by
    rw [map_flatten_mapM_read, BlockKind.flatMap_slots_eq hruns]
  rw [lowerBlock]
  constructor
  · intro h
    obtain ⟨block, hblock, h⟩ := bind_eq_ok.1 h
    refine ⟨block, block_eq_ok.1 hblock, ?_⟩
    cases hruns : block.kind.operands? with
    | none =>
        rw [hruns] at h
        cases h
    | some runs =>
        rw [hruns] at h
        obtain ⟨parts, hparts, h⟩ := bind_eq_ok.1 h
        cases h
        have hflat := hread hruns
        rw [hparts] at hflat
        obtain ⟨part, heq, hpart⟩ := mapM_eq_ok.1 hflat.symm
        rw [heq, List.map_map, List.flatMap_map]
        exact ⟨rfl, part, hpart, rfl⟩
  · rintro ⟨block, hblock, hkind, part, hpart, rfl⟩
    obtain ⟨runs, hruns⟩ := Option.isSome_iff_exists.1 hkind
    have hflat := (hread hruns).trans (mapM_eq_ok.2 ⟨part, rfl, hpart⟩)
    obtain ⟨parts, hparts, heq⟩ := map_eq_ok.1 hflat
    refine bind_eq_ok.2 ⟨block, block_eq_ok.2 hblock, ?_⟩
    rw [hruns]
    refine bind_eq_ok.2 ⟨parts, hparts, ?_⟩
    rw [heq]
    dsimp only
    rw [List.map_map, List.flatMap_map]
    rfl

/-- The tags in a lowered tree are those of its blocks and of the holes on them. -/
theorem tagsIn_lowerBlock (h : g.shape.Wired) (hb : g.shape.Live b) {fuel : Nat} {l : Lowered}
    (hl : g.lowerBlock fuel b = .ok l) :
    l.term.TagsIn fun tag => ∃ c, g.shape.Below c b ∧ g.shape.Marks c tag := by
  refine structural_lowerBlock (Term.structural_tagsIn _ (fun _ => True) fun _ => True)
    (fun _ => ⟨fun _ _ _ => trivial, fun _ _ => trivial⟩) ?_ ⟨b, .refl, rfl, hb⟩ hl
  rintro _ slot s ⟨c, hc, rfl, p, hp⟩ hs
  have hsite := (inputNamed_eq_ok h hp).1 hs
  rw [pluggedBlock_eq h hsite]
  refine ⟨fun hfree => ⟨_, hc, Except.ok.inj hfree, slot, hsite⟩, fun d hd => ?_⟩
  have hguest := Except.ok.inj hd
  exact ⟨d, .head (h.plugged_of_guest hsite hguest) hc, rfl, h.live_of_guest hguest⟩

section

variable {uses : String → Ty → Prop} {p : Ports} {typing : String → Ty × List (Tag × Ty)}
  {notes : List (Tag × Ty)} (h : g.shape.Regular ∅) (hp : g.shape.ports b = some p)
  (hbeside : (Tag.block b).Beside notes (Term.Noted.joined (p.kind.slots.map typing)))
  (hfills : ∀ {slot s}, g.shape.site s = some (b, .input slot) →
    g.shape.Fills uses s (typing slot).1 (typing slot).2)

include h hp hfills

/-- The notes of one slot have the tags under it, and those of the others do not. -/
theorem lookup_joined_eq {s : SocketId} {slot : String} {tag : Tag}
    (hs : g.shape.site s = some (b, .input slot)) (htag : g.shape.Under s tag) :
    (Term.Noted.joined (p.kind.slots.map typing)).lookup tag = (typing slot).2.lookup tag := by
  refine Term.Noted.lookup_joined (h.mem_slots hp False.elim hs) fun slot' hslot' hne => ?_
  refine List.lookup_eq_none_iff.2 fun n hn => bne_iff_ne.2 ?_
  rintro rfl
  obtain ⟨s', hs'⟩ := h.exists_site hp False.elim hslot'
  obtain rfl := h.toWired.under_unique h.acyclic hs hs' htag ((hfills hs').under n hn)
  rw [hs] at hs'
  cases hs'
  exact hne rfl

theorem lookup_block_joined :
    (Term.Noted.joined (p.kind.slots.map typing)).lookup (.block b) = none := by
  refine List.lookup_eq_none_iff.2 fun n hn => bne_iff_ne.2 fun heq => ?_
  obtain ⟨notes, hnotes, hn⟩ := List.mem_flatten.1 hn
  simp only [List.map_map, List.mem_reverse, List.mem_map, Function.comp_apply] at hnotes
  obtain ⟨slot, hslot, rfl⟩ := hnotes
  obtain ⟨s, hs⟩ := h.exists_site hp False.elim hslot
  exact h.toWired.under_ne_block h.acyclic hs ((hfills hs).under n hn) heq.symm

include hbeside

/-- The notes of a block give types to the tree below it. -/
theorem agrees_of_fills {t : Ty} (hmarked : ∀ n ∈ notes, ∃ c, g.shape.Below c b ∧
      g.shape.Marks c n.1)
    (hfits : p.kind.hasOutput → p.kind.Fits uses (fun slot => (typing slot).1) t ∧
      notes.lookup (.block b) = some t)
    (hfun : ∀ {name params u}, p.kind = .function name params →
      notes.lookup (.block b) = some u →
        (Term.Noted.joined (p.kind.slots.map typing)).lookup (.block b) = some u ∨
          ∃ args : List Ty, args.length = params.length ∧
            u = .curried args (typing Slot.result).1) :
    g.shape.Typing uses {c | g.shape.Below c b} fun tag => notes.lookup tag := by
  have hlookup : ∀ {s slot tag}, g.shape.site s = some (b, .input slot) →
      g.shape.Under s tag → notes.lookup tag = (typing slot).2.lookup tag := fun hs htag =>
    (hbeside _ (h.toWired.under_ne_block h.acyclic hs htag)).trans
      (lookup_joined_eq h hp hfills hs htag)
  refine ⟨fun {tag u} hu => ?_, fun c hc q hq => ?_⟩
  · obtain ⟨before, after, rfl, -⟩ := List.lookup_eq_some_iff.1 hu
    exact hmarked (tag, u) (by simp)
  rcases ReflTransGen.cases_tail hc with rfl | ⟨d, hd, hplug⟩
  · obtain rfl := Option.some.inj (hq.symm.trans hp)
    refine ⟨fun slot => (typing slot).1, fun {slot s} hs => ?_, fun hout => ?_,
      fun {name params u} hkind hu => ?_⟩
    · refine (hlookup hs ?_).trans (hfills hs).filled
      cases hguest : g.shape.guest s with
      | none => exact filling_of_free hguest ▸ .inl ⟨hguest, rfl⟩
      | some c =>
          exact filling_of_guest hguest ▸
            under_of_below hguest .refl (h.toWired.live_of_guest hguest)
    · exact ⟨t, (hfits hout).2, (hfits hout).1⟩
    · refine (hfun hkind hu).resolve_left fun hjoined => ?_
      rw [lookup_block_joined h hp hfills] at hjoined
      cases hjoined
  · obtain ⟨s, hs, hguest⟩ := (h.plugged_iff_input hp).1 hplug
    obtain ⟨slot, hs⟩ := (h.lists hp).input hs
    obtain ⟨inputs, hagrees⟩ := ((hfills hs).tree hguest).agrees c hd hq
    refine ⟨inputs, hagrees.congr (hlookup hs (under_of_below hguest hd ⟨q, hq⟩)) ?_⟩
    exact fun hs' => hlookup hs (h.toWired.under_filling hguest hd hs')

end

theorem typing_lowerBlock (h : g.shape.Regular ∅) (hprelude : Prelude.Within env bound)
    {fuel : Nat} {l : Lowered} {t : Ty} {notes : List (Tag × Ty)} (hb : g.shape.Live b)
    (hl : g.lowerBlock fuel b = .ok l) (hnoted : l.term.Noted env bound t notes) :
    g.shape.Typing (env.Uses bound) {c | g.shape.Below c b} (fun tag => notes.lookup tag) ∧
      ∀ {p}, g.shape.ports b = some p → p.kind.hasOutput → notes.lookup (.block b) = some t := by
  have hmarked := hnoted.tagsIn (tagsIn_lowerBlock h.toWired hb hl)
  induction fuel generalizing b l t notes with
  | zero => cases hl
  | succ fuel ih =>
      obtain ⟨block, hblock, hruns, part, hparts, rfl⟩ := lowerBlock_eq_ok.1 hl
      have hp := shape_ports_eq_some.2 ⟨block, hblock, rfl⟩
      obtain ⟨typing, htyping, hbeside, hfits, hfun⟩ :=
        hnoted.exists_parts hprelude (h.sound hp).unrepeated hruns
      refine ⟨agrees_of_fills h hp hbeside (fun {slot s} hs => ?_) hmarked hfits hfun,
        fun hq hout => ?_⟩
      · have hslot := h.mem_slots hp False.elim hs
        have hpart := htyping slot hslot
        have hlower := hparts slot hslot
        simp only [lowerSlot, (inputNamed_eq_ok h.toWired hp).2 hs, pluggedBlock_eq h.toWired hs,
          bind, Except.bind] at hlower
        cases hguest : g.shape.guest s with
        | none =>
            rw [hguest] at hlower
            rw [← Except.ok.inj hlower] at hpart
            obtain ⟨-, hnotes⟩ := hpart.of_var
            rw [hnotes]
            refine ⟨filling_of_free hguest ▸ List.lookup_cons_self,
              List.forall_mem_singleton.2 (.inl ⟨hguest, rfl⟩), fun hc => ?_⟩
            rw [hguest] at hc
            cases hc
        | some c =>
            rw [hguest] at hlower
            have hlive := h.toWired.live_of_guest hguest
            have htags := hpart.tagsIn (tagsIn_lowerBlock h.toWired hlive hlower)
            obtain ⟨hchild, hchildOut⟩ := ih hlive hlower hpart htags
            obtain ⟨p', hp'⟩ := id hlive
            refine ⟨?_, fun n hn => .inr ⟨c, hguest, htags n hn⟩, fun hc => ?_⟩
            · rw [filling_of_guest hguest]
              obtain ⟨o, -, -, ho, -⟩ := h.toWired.plugged_of_guest hs hguest
              exact hchildOut hp' (h.hasOutput_of_site hp' ho)
            · obtain rfl := Option.some.inj (hguest.symm.trans hc)
              exact hchild
      · obtain rfl := Option.some.inj (hq.symm.trans hp)
        exact (hfits hout).2

/-- A typing of the term of a tree gives types to the blocks and the holes of the tree. -/
theorem typing_lower (h : g.shape.Regular ∅) (hprelude : Prelude.Within env bound)
    {l : Lowered} {t : Ty} {notes : List (Tag × Ty)} (hb : g.shape.Live b)
    (hl : g.lower b = .ok l) (hnoted : l.term.Noted env bound t notes) :
    g.shape.Typing (env.Uses bound) {c | g.shape.Below c b} fun tag => notes.lookup tag := by
  obtain ⟨-, -, hl⟩ := bind_eq_ok.1 hl
  exact (typing_lowerBlock h hprelude hb hl hnoted).1

end Graph

end Plugboard
