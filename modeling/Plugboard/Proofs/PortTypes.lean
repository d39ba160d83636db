import Plugboard.Proofs.TreeTypes

/-!
# The types on the ports

When the types of a tree are kept, one substitution brings them into agreement with what was kept
before. So the types on the ports of the tree are those of the tree under that substitution; on
other ports the substitution is applied to what is there, or nothing is done. Types that fit
together fit together under a substitution as well.
-/

namespace Plugboard

open Relation

theorem Subst.apply_curried (s : Subst) (args : List Ty) (result : Ty) :
    s.apply (.curried args result) = .curried (args.map s.apply) (s.apply result) :=
  Ty.bind_curried s.image args result

theorem Ty.uncurry_curried (args : List Ty) (result : Ty) :
    (Ty.curried args result).uncurry args.length = (args, result) := by
  induction args with
  | nil => cases result <;> rfl
  | cons arg args ih =>
      change (arg :: ((Ty.curried args result).uncurry args.length).1,
        ((Ty.curried args result).uncurry args.length).2) = _
      rw [ih]

namespace BlockKind

variable {uses : String → Ty → Prop} {inputs : String → Ty} {output : Ty} {kind : BlockKind}

/-- What fits together does so under a substitution that leaves uses of names uses. -/
theorem Fits.apply (h : kind.Fits uses inputs output) (hground : kind.Ground) (s : Subst)
    (huses : ∀ name t, uses name t → uses name (s.apply t)) :
    kind.Fits uses (fun slot => s.apply (inputs slot)) (s.apply output) := by
  cases kind with
  | literal value ty =>
      obtain rfl : output = ty := h
      exact Ty.bind_of_ground hground s.image
  | operator name arity =>
      have hcurried := huses _ _ h
      rw [s.apply_curried, List.map_map] at hcurried
      exact hcurried
  | lambda param =>
      obtain ⟨u, rfl⟩ := h
      exact ⟨s.apply u, rfl⟩
  | apply =>
      replace h : inputs Slot.func = .fn (inputs Slot.argument) output := h
      change s.apply (inputs Slot.func) = _
      rw [h]
      rfl
  | localLet name => exact congrArg s.apply h
  | list items =>
      obtain ⟨item, hitems, rfl⟩ := h
      exact ⟨s.apply item, fun i hi => congrArg s.apply (hitems i hi), rfl⟩
  | comprehension vars guards =>
      obtain ⟨hlists, htests, rfl⟩ := h
      refine ⟨fun v hv => ?_, fun i hi => congrArg s.apply (htests i hi), rfl⟩
      obtain ⟨item, hitem⟩ := hlists v hv
      exact ⟨s.apply item, congrArg s.apply hitem⟩
  | cases typeName arms =>
      obtain ⟨fields, hfields, h⟩ := h
      refine ⟨fun arm => (fields arm).map s.apply, fun arm harm => ?_, ?_⟩
      · rw [List.length_map]
        exact hfields arm harm
      · have hcurried := huses _ _ h
        simp only [s.apply_curried, List.map_cons, List.map_map, Function.comp_def] at hcurried
        exact hcurried
  | «variable» | function | data | statement => trivial

end BlockKind

namespace Shape

variable {sh : Shape} {b : BlockId} {s : SocketId} {slot : String} {tag : Tag}

/-- The tag whose type is kept on a socket: that of the block at its output, and at an input that
of what fills it. -/
def tagAt (sh : Shape) (s : SocketId) : Option Tag :=
  (sh.site s).map fun
    | (b, .output) => .block b
    | (_, .input _) => sh.filling s

theorem tagAt_output (hs : sh.site s = some (b, .output)) : sh.tagAt s = some (.block b) := by
  rw [tagAt, hs, Option.map_some]

theorem tagAt_input (hs : sh.site s = some (b, .input slot)) :
    sh.tagAt s = some (sh.filling s) := by
  rw [tagAt, hs, Option.map_some]

/-- An input is filled by the block whose output is plugged in. -/
theorem filling_of_peer {o : SocketId} (ho : sh.site o = some (b, .output))
    (hpeer : sh.peer s = some o) : sh.filling s = .block b :=
  filling_of_guest (guest_eq_some.2 ⟨o, _, hpeer, ho⟩)

theorem Marks.tagged (h : sh.Marks b tag) : sh.Tagged b tag := by
  cases tag with
  | block c => exact ⟨h.1, h.1 ▸ h.2⟩
  | socket s =>
      obtain ⟨-, slot, hs⟩ := h
      exact ⟨_, hs⟩

/-- The block is plugged into none that has an output, unless that is in the tree. -/
def Rooted (sh : Shape) (tree : Set BlockId) : Prop :=
  ∀ {b c p}, b ∈ tree → sh.Plugged b c → sh.ports c = some p → p.kind.hasOutput → c ∈ tree

end Shape

/-- A binding that is listed with no other value is one of the map that is made from the list. -/
theorem getElem?_ofList_eq_some {α β : Type} [Ord α] [Std.TransOrd α] [Std.LawfulEqOrd α]
    [DecidableEq α] {l : List (α × β)} {a : α} {b : β} (h : (a, b) ∈ l)
    (hunique : ∀ b', (a, b') ∈ l → b' = b) : (Std.ExtTreeMap.ofList l)[a]? = some b := by
  have hcontains : (Std.ExtTreeMap.ofList l).contains a := by
    rw [Std.ExtTreeMap.contains_ofList, List.contains_iff_mem]
    exact List.mem_map_of_mem h
  rw [← Std.ExtTreeMap.isSome_getElem?_eq_contains] at hcontains
  obtain ⟨b', hb'⟩ := Option.isSome_iff_exists.1 hcontains
  exact hunique b' (mem_of_getElem?_ofList hb') ▸ hb'

namespace Graph

open Shape

variable {g : Graph} {b c : BlockId} {s : SocketId} {slot : String} {place : Place}
  {placed : List (Place × Ty)} {t u : Ty} {tag : Tag}

theorem placesOf_output (h : g.shape.Wired) (hs : g.shape.site s = some (b, .output)) (t : Ty) :
    g.placesOf (.block b) t = [(.socket s, t)] := by
  obtain ⟨p, hp⟩ := h.owner hs
  obtain ⟨block, hblock, rfl⟩ := shape_ports_eq_some.1 hp
  have hout : block.output = some s := (h.lists hp).output_eq_some.2 hs
  simp only [placesOf, places, block_eq_ok.2 hblock, bind, Except.bind, hout]
  rfl

theorem placesOf_socket {r : BlockId × Role} (hs : g.shape.site s = some r) (t : Ty) :
    g.placesOf (.socket s) t = [(.socket s, t)] := by
  obtain ⟨socket, hsocket, -⟩ := shape_site_eq_some.1 hs
  have hcontains : g.sockets.contains s := by
    rw [← Std.ExtTreeMap.isSome_getElem?_eq_contains, hsocket]
    rfl
  simp only [placesOf, places, hcontains, if_true]

/-- Of the type of a function, what is left without its parameters is kept on a socket. -/
theorem of_mem_placesOf_block (h : g.shape.Wired) {p : Ports} (hp : g.shape.ports b = some p)
    (hmem : (.socket s, t) ∈ g.placesOf (.block b) u) :
    g.shape.site s = some (b, .output) ∧ t = u ∨
      ∃ name params, p.kind = .function name params ∧
        g.shape.site s = some (b, .input Slot.result) ∧ t = (u.uncurry params.length).2 := by
  obtain ⟨block, hblock, rfl⟩ := shape_ports_eq_some.1 hp
  cases hout : block.output with
  | some o =>
      have ho := (h.lists hp).output hout
      rw [placesOf_output h ho, List.mem_singleton] at hmem
      cases hmem
      exact .inl ⟨ho, rfl⟩
  | none =>
      simp only [placesOf, places, block_eq_ok.2 hblock, bind, Except.bind, hout] at hmem
      cases hfun : block.kind.function? with
      | none =>
          rw [hfun] at hmem
          exact (List.not_mem_nil hmem).elim
      | some f =>
          obtain ⟨name, params⟩ := f
          cases hresult : g.inputNamed b Slot.result with
          | error e =>
              rw [hfun, hresult] at hmem
              exact (List.not_mem_nil hmem).elim
          | ok result =>
              rw [hfun, hresult] at hmem
              rcases List.mem_append.1 hmem with hmem | hmem
              · rw [← List.map_uncurry_zip_eq_zipWith] at hmem
                obtain ⟨entry, -, heq⟩ := List.mem_map.1 hmem
                cases heq
              · cases List.mem_singleton.1 hmem
                refine .inr ⟨name, params, ?_, (inputNamed_eq_ok h hp).1 hresult, rfl⟩
                cases hkind : block.kind <;> rw [hkind] at hfun <;> cases hfun
                rfl

theorem mem_ownPlaces_of_output {types : Std.ExtTreeMap Tag Ty} (h : g.shape.Wired)
    (hs : g.shape.site s = some (b, .output)) (ht : types[Tag.block b]? = some t) :
    (.socket s, t) ∈ g.ownPlaces types := by
  refine List.mem_flatMap.2 ⟨(.block b, t), ?_, ?_⟩
  · exact Std.ExtTreeMap.mem_toList_iff_getElem?_eq_some.2 ht
  · rw [placesOf_output h hs]
    exact List.mem_singleton_self _

section

variable {uses : String → Ty → Prop} {tree : Set BlockId} {types : Std.ExtTreeMap Tag Ty}
  {members : BlockSet} (h : g.shape.Wired)
  (htyping : g.shape.Typing uses tree fun tag => types[tag]?)

include h htyping

/-- What is kept on a socket by itself is the type of its tag. -/
theorem of_mem_ownPlaces (hmem : (.socket s, t) ∈ g.ownPlaces types) :
    ∃ tag, g.shape.tagAt s = some tag ∧ types[tag]? = some t := by
  obtain ⟨⟨tag, u⟩, hentry, hmem⟩ := List.mem_flatMap.1 hmem
  have hu := Std.ExtTreeMap.mem_toList_iff_getElem?_eq_some.1 hentry
  obtain ⟨b, hb, hmarks⟩ := htyping.marked hu
  cases tag with
  | socket d =>
      obtain ⟨hfree, slot, hd⟩ := hmarks
      rw [placesOf_socket hd, List.mem_singleton] at hmem
      cases hmem
      exact ⟨_, tagAt_input hd, filling_of_free hfree ▸ hu⟩
  | block c =>
      obtain ⟨rfl, p, hp⟩ := hmarks
      rcases of_mem_placesOf_block h hp hmem with ⟨hs, rfl⟩ | ⟨name, params, hkind, hs, rfl⟩
      · exact ⟨_, tagAt_output hs, hu⟩
      · obtain ⟨inputs, hagrees⟩ := htyping.agrees c hb hp
        obtain ⟨args, hlength, rfl⟩ := hagrees.curried hkind hu
        refine ⟨_, tagAt_input hs, ?_⟩
        rw [← hlength, Ty.uncurry_curried]
        exact hagrees.filled hs

/-- So is what an input takes from the output that is plugged in. -/
theorem of_mem_placed (hmem : (.socket s, t) ∈ g.placed types members) :
    ∃ tag, g.shape.tagAt s = some tag ∧ types[tag]? = some t := by
  rcases List.mem_append.1 hmem with hmem | hmem
  · exact of_mem_ownPlaces h htyping hmem
  · obtain ⟨output, input, c, slot, hplace, hown, -, hsite, hpeer⟩ := exists_of_mem_followers hmem
    cases hplace
    obtain ⟨tag, htag, ht⟩ := of_mem_ownPlaces h htyping hown
    rcases h.joins hpeer with ⟨_, _, _, hs, -⟩ | ⟨_, d, _, -, hs⟩
    · rw [hsite] at hs
      cases hs
    · rw [tagAt_output hs, Option.some.injEq] at htag
      refine ⟨tag, ?_, ht⟩
      rw [tagAt_input hsite, filling_of_peer hs hpeer, htag]

/-- A type for the tag of a socket is kept on the socket. -/
theorem mem_placed (hmembers : ∀ c, c ∈ members ↔ ∃ p ∈ g.ownPlaces types, ∃ b,
      g.shape.Hosts b p.1 ∧ g.shape.Connected b c) (htag : g.shape.tagAt s = some tag)
    (ht : types[tag]? = some t) : (.socket s, t) ∈ g.placed types members := by
  obtain ⟨⟨b, role⟩, hs, rfl⟩ := Option.map_eq_some_iff.1 htag
  cases role with
  | output => exact List.mem_append_left _ (mem_ownPlaces_of_output h hs ht)
  | input slot =>
      dsimp only at ht
      cases hguest : g.shape.guest s with
      | none =>
          rw [filling_of_free hguest] at ht
          refine List.mem_append_left _ (List.mem_flatMap.2 ⟨(.socket s, t), ?_, ?_⟩)
          · exact Std.ExtTreeMap.mem_toList_iff_getElem?_eq_some.2 ht
          · rw [placesOf_socket hs]
            exact List.mem_singleton_self _
      | some d =>
          rw [filling_of_guest hguest] at ht
          obtain ⟨o, hpeer, hplug⟩ : ∃ o, g.shape.peer s = some o ∧
              g.shape.site o = some (d, .output) := by
            obtain ⟨o, role, hpeer, ho⟩ := guest_eq_some.1 hguest
            rcases h.joins hpeer with ⟨_, _, _, hs', -⟩ | ⟨_, _, _, -, ho'⟩
            · rw [hs] at hs'
              cases hs'
            · rw [ho] at ho'
              cases ho'
              exact ⟨o, hpeer, ho⟩
          have hown := mem_ownPlaces_of_output h hplug ht
          have hb : b ∈ members := (hmembers b).2 ⟨_, hown, d, ⟨_, hplug⟩,
            .single (.inr (h.plugged_of_guest hs hguest))⟩
          refine List.mem_append_right _ (List.mem_filterMap.2 ⟨(o, s), ?_, ?_⟩)
          · exact mem_linksWithin.2 ⟨b, slot, hb, hs, hpeer⟩
          · refine Option.map_eq_some_iff.2 ⟨t, ?_, rfl⟩
            refine getElem?_ofList_eq_some (List.mem_filterMap.2 ⟨_, hown, rfl⟩) fun u hu => ?_
            obtain ⟨⟨place, u'⟩, hmem, heq⟩ := List.mem_filterMap.1 hu
            cases place with
            | param b name => cases heq
            | socket x =>
                cases heq
                obtain ⟨tag, htag, hu'⟩ := of_mem_ownPlaces h htyping hmem
                rw [tagAt_output hplug, Option.some.injEq] at htag
                subst htag
                exact Option.some.inj (hu'.symm.trans ht)

end

/-- The types of a tree are kept, around the blocks that they are kept on. -/
structure Keeps (g : Graph) (uses : String → Ty → Prop) (tree : Set BlockId)
    (types : Std.ExtTreeMap Tag Ty) (members : BlockSet) : Prop where
  regular : g.shape.Regular ∅
  typing : g.shape.Typing uses tree fun tag => types[tag]?
  mem_members : ∀ c, c ∈ members ↔ ∃ p ∈ g.ownPlaces types, ∃ b,
    g.shape.Hosts b p.1 ∧ g.shape.Connected b c

namespace Keeps

variable {uses : String → Ty → Prop} {tree : Set BlockId} {types : Std.ExtTreeMap Tag Ty}
  {members : BlockSet} (h : g.Keeps uses tree types members)

include h

theorem exists_hosts {p : Place × Ty} (hp : p ∈ g.placed types members) :
    ∃ b, g.shape.Hosts b p.1 := by
  rcases List.mem_append.1 hp with hp | hp
  · obtain ⟨⟨tag, u⟩, hentry, hp⟩ := List.mem_flatMap.1 hp
    obtain ⟨b, -, hmarks⟩ :=
      h.typing.marked (Std.ExtTreeMap.mem_toList_iff_getElem?_eq_some.1 hentry)
    exact ⟨b, (exists_places_eq h.regular hmarks.tagged u).2 p hp⟩
  · obtain ⟨output, input, c, slot, hplace, -, -, hsite, -⟩ := exists_of_mem_followers hp
    exact ⟨c, hplace ▸ ⟨_, hsite⟩⟩

theorem mem_members_iff (hbc : g.shape.Connected b c) : b ∈ members ↔ c ∈ members := by
  rw [h.mem_members, h.mem_members]
  constructor
  · rintro ⟨p, hp, d, hd, hdb⟩
    exact ⟨p, hp, d, hd, hdb.trans hbc⟩
  · rintro ⟨p, hp, d, hd, hdc⟩
    exact ⟨p, hp, d, hd, hdc.trans hbc.symm⟩

/-- What a socket holds when the types have been kept. -/
theorem tyAt_annotated {role : Role} (hs : g.shape.site s = some (b, role))
    (htag : g.shape.tagAt s = some tag) :
    (g.annotated types members).tyAt s = match types[tag]? with
      | some t => some ((g.agreed (g.placed types members)).apply t)
      | none => if b ∈ members then (g.tyAt s).map (g.agreed (g.placed types members)).apply
          else g.tyAt s := by
  have hhosts : g.shape.Hosts b (.socket s) := ⟨role, hs⟩
  rw [annotated]
  generalize g.agreed (g.placed types members) = σ
  have hall : ∀ q ∈ settledAt σ (g.placed types members),
      ∃ b, (g.applyTo σ members).shape.Hosts b q.1 := fun q hq => by
    obtain ⟨p, hp, rfl⟩ := List.mem_map.1 hq
    rw [shape_applyTo]
    exact h.exists_hosts (p := p) hp
  have hkept := keptAt_keepAll hall (.socket s)
  change Graph.tyAt _ s = _ at hkept
  rw [hkept, keptAt_applyTo hhosts]
  cases ht : types[tag]? with
  | some t =>
      refine foldl_kept_of_mem (fun u hu => ?_) (.inr ?_)
      · obtain ⟨⟨place, u'⟩, hp, heq⟩ := List.mem_map.1 hu
        cases heq
        obtain ⟨tag', htag', hu'⟩ := of_mem_placed h.regular.toWired h.typing hp
        rw [htag, Option.some.injEq] at htag'
        subst htag'
        rw [Option.some.inj (hu'.symm.trans ht)]
      · exact List.mem_map.2 ⟨_, mem_placed h.regular.toWired h.typing h.mem_members htag ht, rfl⟩
  | none =>
      refine foldl_kept_of_forall_ne fun q hq heq => ?_
      obtain ⟨⟨place, u⟩, hp, rfl⟩ := List.mem_map.1 hq
      obtain rfl : place = .socket s := heq
      obtain ⟨tag', htag', hu⟩ := of_mem_placed h.regular.toWired h.typing hp
      rw [htag, Option.some.injEq] at htag'
      subst htag'
      rw [ht] at hu
      cases hu

end Keeps

/-- These are the types on the sockets of a block. -/
structure Holds (g : Graph) (b : BlockId) (inputs : String → Ty) (output : Ty) : Prop where
  input : ∀ {s slot}, g.shape.site s = some (b, .input slot) → g.tyAt s = some (inputs slot)
  output : ∀ {s}, g.shape.site s = some (b, .output) → g.tyAt s = some output

/-- The types on a block with an output fit together, and the input that it is plugged into has
the type of its output. -/
structure Fitted (g : Graph) (uses : String → Ty → Prop) (b : BlockId) : Prop where
  fits : ∀ {p}, g.shape.ports b = some p → p.kind.hasOutput →
    ∃ inputs output, g.Holds b inputs output ∧ p.kind.Fits uses inputs output
  linked : ∀ {o i}, g.shape.site o = some (b, .output) → g.shape.peer o = some i →
    g.tyAt i = g.tyAt o

namespace Keeps

variable {uses : String → Ty → Prop} {tree : Set BlockId} {types : Std.ExtTreeMap Tag Ty}
  {members : BlockSet} (h : g.Keeps uses tree types members)
  (hground : g.shape.Ground) (huses : ∀ name t (s : Subst), uses name t → uses name (s.apply t))

include h

/-- The input that a block is plugged into has the tag of the block, and is plugged together with
it. -/
theorem exists_input {o i : SocketId} (ho : g.shape.site o = some (b, .output))
    (hpeer : g.shape.peer o = some i) : ∃ c slot, g.shape.site i = some (c, .input slot) ∧
      g.shape.tagAt i = some (.block b) ∧ g.shape.Plugged b c := by
  rcases h.regular.joins hpeer with ⟨_, c, slot, -, hi⟩ | ⟨_, _, _, ho', -⟩
  · refine ⟨c, slot, hi, ?_, o, i, slot, ho, hpeer, hi⟩
    rw [tagAt_input hi, filling_of_peer ho (h.regular.symm hpeer)]
  · rw [ho] at ho'
    cases ho'

/-- What is at both ends of a link is the same, if it was so before or has been kept now. -/
theorem linked_annotated (hb : b ∈ tree ∨ g.Fitted uses b) {o i : SocketId}
    (ho : (g.annotated types members).shape.site o = some (b, .output))
    (hpeer : (g.annotated types members).shape.peer o = some i) :
    (g.annotated types members).tyAt i = (g.annotated types members).tyAt o := by
  rw [shape_annotated] at ho hpeer
  obtain ⟨c, slot, hi, htag, hplug⟩ := h.exists_input ho hpeer
  rw [h.tyAt_annotated hi htag, h.tyAt_annotated ho (tagAt_output ho)]
  cases ht : types[Tag.block b]? with
  | some t => rfl
  | none =>
      have hmem : b ∈ members ↔ c ∈ members := h.mem_members_iff (.single (.inr hplug))
      rcases hb with hb | hb
      · obtain ⟨p, hp⟩ := h.regular.owner ho
        obtain ⟨inputs, hagrees⟩ := h.typing.agrees b hb hp
        obtain ⟨t, ht', -⟩ := hagrees.fits (h.regular.hasOutput_of_site hp ho)
        rw [ht] at ht'
        cases ht'
      · simp only [hmem, hb.linked ho hpeer]

include hground huses

/-- The blocks of the tree fit afterwards. -/
theorem fitted_of_mem (hb : b ∈ tree) : (g.annotated types members).Fitted uses b where
  fits {p} hp hout := by
    rw [shape_annotated] at hp
    obtain ⟨inputs, hagrees⟩ := h.typing.agrees b hb hp
    obtain ⟨t, ht, hfits⟩ := hagrees.fits hout
    refine ⟨_, _, ⟨fun {s slot} hs => ?_, fun {s} hs => ?_⟩,
      hfits.apply (hground hp) (g.agreed (g.placed types members)) fun name t => huses name t _⟩
    · rw [shape_annotated] at hs
      rw [h.tyAt_annotated hs (tagAt_input hs), hagrees.filled hs]
    · rw [shape_annotated] at hs
      rw [h.tyAt_annotated hs (tagAt_output hs), ht]
  linked := h.linked_annotated (.inl hb)

/-- The other blocks fit as they did before, if the tree is in none that has an output. -/
theorem fitted_of_not_mem (hrooted : g.shape.Rooted tree) (hb : b ∉ tree)
    (hfitted : g.Fitted uses b) : (g.annotated types members).Fitted uses b where
  fits {p} hp hout := by
    rw [shape_annotated] at hp
    obtain ⟨inputs, output, hholds, hfits⟩ := hfitted.fits hp hout
    have hown : types[Tag.block b]? = none := by
      refine Option.eq_none_iff_forall_ne_some.2 fun t ht => ?_
      obtain ⟨c, hc, rfl, -⟩ := h.typing.marked ht
      exact hb hc
    have hfilling : ∀ {s slot}, g.shape.site s = some (b, .input slot) →
        types[g.shape.filling s]? = none := by
      intro s slot hs
      refine Option.eq_none_iff_forall_ne_some.2 fun t ht => ?_
      obtain ⟨c, hc, hmarks⟩ := h.typing.marked ht
      cases hguest : g.shape.guest s with
      | none =>
          rw [filling_of_free hguest] at hmarks
          exact hb (hmarks.unique ⟨hguest, slot, hs⟩ ▸ hc)
      | some d =>
          rw [filling_of_guest hguest] at hmarks
          obtain ⟨rfl, -⟩ := hmarks
          exact hb (hrooted hc (h.regular.plugged_of_guest hs hguest) hp hout)
    by_cases hmem : b ∈ members
    · refine ⟨_, _, ⟨fun {s slot} hs => ?_, fun {s} hs => ?_⟩,
        hfits.apply (hground hp) (g.agreed (g.placed types members)) fun name t => huses name t _⟩
      · rw [shape_annotated] at hs
        rw [h.tyAt_annotated hs (tagAt_input hs), hfilling hs, hholds.input hs]
        exact if_pos hmem
      · rw [shape_annotated] at hs
        rw [h.tyAt_annotated hs (tagAt_output hs), hown, hholds.output hs]
        exact if_pos hmem
    · refine ⟨_, _, ⟨fun {s slot} hs => ?_, fun {s} hs => ?_⟩, hfits⟩
      · rw [shape_annotated] at hs
        rw [h.tyAt_annotated hs (tagAt_input hs), hfilling hs, hholds.input hs]
        exact if_neg hmem
      · rw [shape_annotated] at hs
        rw [h.tyAt_annotated hs (tagAt_output hs), hown, hholds.output hs]
        exact if_neg hmem
  linked := h.linked_annotated (.inr hfitted)

end Keeps

end Graph

end Plugboard
