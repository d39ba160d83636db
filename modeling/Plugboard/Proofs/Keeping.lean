import Plugboard.Proofs.LayoutVariables
import Plugboard.Proofs.Regularity

/-!
# What keeping inferred types comes to

Types that are inferred for tags of blocks that are there can always be kept: each finds its places,
one substitution brings them into agreement with what is kept around them, and it is applied to
all that is plugged together with those places. Nothing else on the canvas changes.
-/

namespace Plugboard

namespace Shape

/-- The place is on a block. -/
def Hosts (sh : Shape) (b : BlockId) : Place → Prop
  | .socket s => ∃ role, sh.site s = some (b, role)
  | .param c _ => c = b ∧ ∃ p, sh.ports b = some p

/-- The tag is that of a block or of a socket on it. -/
def Tagged (sh : Shape) (b : BlockId) : Tag → Prop
  | .block c => c = b ∧ ∃ p, sh.ports b = some p
  | .socket s => ∃ role, sh.site s = some (b, role)

variable {sh : Shape} {b c : BlockId} {place : Place}

theorem Hosts.unique (h : sh.Hosts b place) (h' : sh.Hosts c place) : b = c := by
  cases place with
  | socket s =>
      obtain ⟨role, hs⟩ := h
      obtain ⟨role', hs'⟩ := h'
      exact (Prod.mk.inj (Option.some.inj (hs.symm.trans hs'))).1
  | param d name => exact h.1.symm.trans h'.1

theorem Hosts.live (hsh : sh.Wired) (h : sh.Hosts b place) : ∃ p, sh.ports b = some p := by
  cases place with
  | socket s =>
      obtain ⟨role, hs⟩ := h
      exact hsh.owner hs
  | param d name => exact h.2

end Shape

namespace Graph

variable {g : Graph} {b : BlockId} {place : Place} {loose : Set BlockId}

/-- The type that is kept at a place, if the place is there and has one. -/
def keptAt (g : Graph) : Place → Option Ty
  | .socket s => g.tyAt s
  | .param b name => g.paramAt b name

/-- The warning on a block. -/
def warningAt (g : Graph) (b : BlockId) : Option String := g.blocks[b]?.bind (·.warning)

theorem exists_hosts_of_keptAt {t : Ty} (h : g.keptAt place = some t) :
    ∃ b, g.shape.Hosts b place := by
  cases place with
  | socket s =>
      obtain ⟨socket, hsocket, -⟩ := Option.bind_eq_some_iff.1 h
      exact ⟨socket.block, _, shape_site_eq_some.2 ⟨socket, hsocket, rfl⟩⟩
  | param b name =>
      obtain ⟨block, hblock, -⟩ := Option.bind_eq_some_iff.1 h
      exact ⟨b, rfl, _, shape_ports_eq_some.2 ⟨block, hblock, rfl⟩⟩

theorem Every.keptAt {P : Ty → Prop} {K : BlockKind → Prop} (h : g.Every P K) {t : Ty}
    (ht : g.keptAt place = some t) : P t := by
  cases place with
  | socket s =>
      obtain ⟨socket, hsocket, hty⟩ := Option.bind_eq_some_iff.1 ht
      obtain ⟨t', ht', hP⟩ := h.socket hsocket
      cases ht'.symm.trans hty
      exact hP
  | param b name =>
      obtain ⟨block, hblock, hty⟩ := Option.bind_eq_some_iff.1 ht
      exact h.param hblock hty

/-- Warnings are no types. -/
theorem keptAt_modifyBlock {f : Block → Block} (hf : ∀ block, (f block).params = block.params)
    (b : BlockId) (place : Place) : (g.modifyBlock b f).keptAt place = g.keptAt place := by
  cases place with
  | socket s => rfl
  | param c name =>
      simp only [Graph.keptAt, paramAt, getElem?_modifyBlock]
      split
      · cases g.blocks[c]? with
        | none => rfl
        | some block => exact congrArg (·[name]?) (hf block)
      · rfl

theorem placeTy_eq (h : g.shape.Hosts b place) : g.placeTy place = .ok (g.keptAt place) := by
  cases place with
  | socket s =>
      obtain ⟨role, hs⟩ := h
      obtain ⟨socket, hsocket, -⟩ := shape_site_eq_some.1 hs
      rw [placeTy, socketTy, Graph.socket, keptAt, tyAt, hsocket]
      rfl
  | param c name =>
      obtain ⟨rfl, p, hp⟩ := h
      obtain ⟨block, hblock, -⟩ := shape_ports_eq_some.1 hp
      rw [placeTy, block_eq_ok.2 hblock, keptAt, paramAt, hblock]
      rfl

theorem placeBlock_eq (h : g.shape.Hosts b place) : g.placeBlock place = .ok b := by
  cases place with
  | socket s =>
      obtain ⟨role, hs⟩ := h
      obtain ⟨socket, hsocket, hb⟩ := shape_site_eq_some.1 hs
      rw [placeBlock, socket_eq_ok.2 hsocket]
      exact congrArg Except.ok (Prod.mk.inj hb).1
  | param c name => exact congrArg Except.ok h.1

/-- Where a type that is inferred for a tag belongs, if the tag is there. -/
def placesOf (g : Graph) (tag : Tag) (t : Ty) : List (Place × Ty) :=
  match g.places tag t with
  | .ok placed => placed
  | .error _ => []

theorem exists_places_eq (h : g.shape.Regular loose) {tag : Tag} (htag : g.shape.Tagged b tag)
    (t : Ty) : g.places tag t = .ok (g.placesOf tag t) ∧
      ∀ p ∈ g.placesOf tag t, g.shape.Hosts b p.1 := by
  suffices hplaces : ∃ placed, g.places tag t = .ok placed ∧
      ∀ p ∈ placed, g.shape.Hosts b p.1 by
    obtain ⟨placed, hplaced, hhosts⟩ := hplaces
    rw [placesOf, hplaced]
    exact ⟨rfl, hhosts⟩
  cases tag with
  | socket s =>
      refine ⟨_, rfl, fun p hp => ?_⟩
      split at hp
      · rw [List.mem_singleton.1 hp]
        exact htag
      · exact (List.not_mem_nil hp).elim
  | block c =>
      obtain ⟨rfl, p, hp⟩ := htag
      obtain ⟨block, hblock, rfl⟩ := shape_ports_eq_some.1 hp
      have hlists := h.lists hp
      rw [places, block_eq_ok.2 hblock]
      dsimp only [bind, Except.bind]
      cases hout : block.output with
      | some output =>
          refine ⟨_, rfl, fun p hp => ?_⟩
          rw [List.mem_singleton.1 hp]
          exact ⟨_, hlists.output hout⟩
      | none =>
          cases hfun : block.kind.function? with
          | none => exact ⟨_, rfl, fun p hp => (List.not_mem_nil hp).elim⟩
          | some f =>
              have hresult : Slot.result ∈ block.kind.slots := by
                cases hkind : block.kind <;> rw [hkind] at hfun <;> cases hfun
                exact List.mem_singleton_self _
              obtain ⟨s, hs⟩ := h.exists_site hp (fun _ => by rw [hfun]; rfl) hresult
              rw [(inputNamed_eq_ok h.toWired hp).2 hs]
              refine ⟨_, rfl, fun p hmem => ?_⟩
              rcases List.mem_append.1 hmem with hmem | hmem
              · rw [← List.map_uncurry_zip_eq_zipWith] at hmem
                obtain ⟨entry, -, rfl⟩ := List.mem_map.1 hmem
                exact ⟨rfl, _, hp⟩
              · rw [List.mem_singleton.1 hmem]
                exact ⟨_, hs⟩

/-- Where the types inferred for tags belong, tag by tag. -/
def ownPlaces (g : Graph) (types : Std.ExtTreeMap Tag Ty) : List (Place × Ty) :=
  types.toList.flatMap fun entry => g.placesOf entry.1 entry.2

/-- Where types are kept: at the places of the tags, and on the inputs that these are plugged to. -/
def placed (g : Graph) (types : Std.ExtTreeMap Tag Ty) (members : BlockSet) :
    List (Place × Ty) :=
  g.ownPlaces types ++ g.followers (g.ownPlaces types) members

/-- What brings new types into agreement with the kept ones. -/
def agreed (g : Graph) (placed : List (Place × Ty)) : Subst :=
  placed.foldl (fun s p => match g.keptAt p.1 with
    | none => s
    | some kept => s.reconcile p.2 kept) .empty

/-- The canvas with another type at a place. -/
def keep (g : Graph) (t : Ty) : Place → Graph
  | .socket s => g.modifySocket s fun socket => { socket with ty := some t }
  | .param b name => g.modifyBlock b fun block =>
      { block with params := block.params.insert name t }

/-- The canvas with other types at places, one after the other. -/
def keepAll (g : Graph) (placed : List (Place × Ty)) : Graph :=
  placed.foldl (fun g p => g.keep p.2 p.1) g

/-- What is kept at places, once it has been brought into agreement. -/
def settledAt (s : Subst) (placed : List (Place × Ty)) : List (Place × Ty) :=
  placed.map fun p => (p.1, s.apply p.2)

/-- The canvas with inferred types kept on it. -/
def annotated (g : Graph) (types : Std.ExtTreeMap Tag Ty) (members : BlockSet) : Graph :=
  let placed := g.placed types members
  let s := g.agreed placed
  (g.applyTo s members).keepAll (settledAt s placed)

theorem mem_linksWithin {members : BlockSet} {output input : SocketId} :
    (output, input) ∈ g.linksWithin members ↔ ∃ c slot, c ∈ members ∧
      g.shape.site input = some (c, .input slot) ∧ g.shape.peer input = some output := by
  simp only [linksWithin, List.mem_filterMap, Prod.exists,
    Std.ExtTreeMap.mem_toList_iff_getElem?_eq_some, Option.ite_none_right_eq_some,
    Bool.and_eq_true, Bool.not_eq_true', Option.map_eq_some_iff, Prod.mk.injEq,
    Std.ExtTreeSet.contains_iff_mem]
  constructor
  · rintro ⟨_, socket, hsocket, ⟨hout, hmem⟩, _, hpeer, rfl, rfl⟩
    cases hrole : socket.role with
    | output => simp [Socket.isOutput, hrole] at hout
    | input slot =>
        exact ⟨socket.block, slot, hmem, shape_site_eq_some.2 ⟨socket, hsocket, by rw [hrole]⟩,
          shape_peer_eq_some.2 ⟨socket, hsocket, hpeer⟩⟩
  · rintro ⟨c, slot, hmem, hsite, hpeer⟩
    obtain ⟨socket, hsocket, hrole⟩ := shape_site_eq_some.1 hsite
    obtain ⟨socket', hsocket', hpeer⟩ := shape_peer_eq_some.1 hpeer
    cases hsocket.symm.trans hsocket'
    obtain ⟨rfl, -⟩ := Prod.mk.inj hrole
    replace hrole : socket.role = .input slot := (Prod.mk.inj hrole).2
    exact ⟨input, socket, hsocket, ⟨by simp [Socket.isOutput, hrole], hmem⟩, output, hpeer,
      rfl, rfl⟩

/-- A follower is an input of a member, plugged to a place whose type it takes. -/
theorem exists_of_mem_followers {placed : List (Place × Ty)} {members : BlockSet}
    {p : Place × Ty} (h : p ∈ g.followers placed members) :
    ∃ output input c slot, p.1 = .socket input ∧ (.socket output, p.2) ∈ placed ∧
      c ∈ members ∧ g.shape.site input = some (c, .input slot) ∧
      g.shape.peer input = some output := by
  rw [followers, List.mem_filterMap] at h
  obtain ⟨⟨output, input⟩, hlink, h⟩ := h
  obtain ⟨t, ht, rfl⟩ := Option.map_eq_some_iff.1 h
  obtain ⟨⟨place, t'⟩, hmem, heq⟩ := List.mem_filterMap.1 (mem_of_getElem?_ofList ht)
  obtain ⟨c, slot, hc, hsite, hpeer⟩ := mem_linksWithin.1 hlink
  cases place with
  | socket s =>
      cases heq
      exact ⟨output, input, c, slot, rfl, hmem, hc, hsite, hpeer⟩
  | param b name => cases heq

theorem agreement_eq {placed : List (Place × Ty)}
    (h : ∀ p ∈ placed, ∃ b, g.shape.Hosts b p.1) :
    g.agreement placed = .ok (g.agreed placed) := by
  rw [agreement, agreed]
  generalize Subst.empty = s
  induction placed generalizing s with
  | nil => rfl
  | cons p placed ih =>
      rw [List.forall_mem_cons] at h
      obtain ⟨b, hb⟩ := h.1
      obtain ⟨place, t⟩ := p
      rw [List.foldlM_cons, List.foldl_cons]
      dsimp only
      rw [placeTy_eq hb]
      cases g.keptAt place with
      | none => exact ih h.2 _
      | some kept => exact ih h.2 _

/-- What makes the types at both ends of links equal, as far as they can be made equal. -/
def linkAgreed (g : Graph) (links : List (SocketId × SocketId)) : Subst :=
  links.foldl (fun s link => match g.tyAt link.1, g.tyAt link.2 with
    | some a, some b => s.reconcile a b
    | _, _ => s) .empty

theorem linkAgreement_eq {links : List (SocketId × SocketId)}
    (h : ∀ link ∈ links, (∃ r, g.shape.site link.1 = some r) ∧ ∃ r, g.shape.site link.2 = some r) :
    g.linkAgreement links = .ok (g.linkAgreed links) := by
  have hty : ∀ {s b role}, g.shape.site s = some (b, role) → g.socketTy s = .ok (g.tyAt s) := by
    intro s b role hs
    have hhosts : g.shape.Hosts b (.socket s) := ⟨role, hs⟩
    exact placeTy_eq hhosts
  rw [linkAgreement, linkAgreed]
  generalize Subst.empty = s
  induction links generalizing s with
  | nil => rfl
  | cons link links ih =>
      rw [List.forall_mem_cons] at h
      obtain ⟨⟨⟨r, hr⟩, r', hr'⟩, hrest⟩ := h
      obtain ⟨output, input⟩ := link
      rw [List.foldlM_cons, List.foldl_cons]
      dsimp only at hr hr' ⊢
      rw [hty hr, hty hr']
      cases g.tyAt output with
      | none => exact ih hrest _
      | some a =>
          cases g.tyAt input with
          | none => exact ih hrest _
          | some b => exact ih hrest _

theorem linkAgreement_linksWithin_eq (h : g.shape.Linked) (members : BlockSet) :
    g.linkAgreement (g.linksWithin members) = .ok (g.linkAgreed (g.linksWithin members)) := by
  refine linkAgreement_eq fun link hlink => ?_
  obtain ⟨c, slot, -, hsite, hpeer⟩ := mem_linksWithin.1 hlink
  exact ⟨h.site_of_peer hpeer, _, hsite⟩

theorem shape_keep (t : Ty) (place : Place) : (g.keep t place).shape = g.shape := by
  cases place with
  | socket s => exact shape_modifySocket fun _ => ⟨rfl, rfl, rfl⟩
  | param b name => exact shape_modifyBlock fun _ => ⟨rfl, rfl, rfl⟩

@[simp]
theorem shape_keepAll (placed : List (Place × Ty)) : (g.keepAll placed).shape = g.shape := by
  induction placed generalizing g with
  | nil => rfl
  | cons p placed ih => exact ih.trans (shape_keep _ _)

@[simp]
theorem shape_annotated (types : Std.ExtTreeMap Tag Ty) (members : BlockSet) :
    (g.annotated types members).shape = g.shape :=
  (shape_keepAll _).trans (shape_applyTo _ members)

theorem keptAt_keep_self (h : g.shape.Hosts b place) (t : Ty) :
    (g.keep t place).keptAt place = some t := by
  cases place with
  | socket s =>
      obtain ⟨role, hs⟩ := h
      obtain ⟨socket, hsocket, -⟩ := shape_site_eq_some.1 hs
      simp only [keep, keptAt, tyAt, getElem?_modifySocket, if_true, hsocket]
      rfl
  | param c name =>
      obtain ⟨rfl, p, hp⟩ := h
      obtain ⟨block, hblock, -⟩ := shape_ports_eq_some.1 hp
      simp only [keep, keptAt, paramAt, getElem?_modifyBlock, if_true, hblock]
      exact Std.ExtTreeMap.getElem?_insert_self

theorem keptAt_keep_of_ne {q : Place} (h : q ≠ place) (t : Ty) :
    (g.keep t place).keptAt q = g.keptAt q := by
  cases place with
  | socket s =>
      cases q with
      | socket x =>
          have hne : s ≠ x := fun hsame => h (congrArg _ hsame.symm)
          simp only [keep, keptAt, tyAt, getElem?_modifySocket, if_neg hne]
      | param c name => rfl
  | param b name =>
      cases q with
      | socket x => rfl
      | param c name' =>
          simp only [keep, keptAt, paramAt, getElem?_modifyBlock]
          split
          · rename_i hsame
            subst hsame
            have hne : name ≠ name' := fun hname => h (congrArg _ hname.symm)
            cases g.blocks[b]? with
            | none => rfl
            | some block => simp [Std.ExtTreeMap.getElem?_insert, hne]
          · rfl

/-- Of several types at one place the last is kept. -/
theorem keptAt_keepAll {placed : List (Place × Ty)} (h : ∀ p ∈ placed, ∃ b, g.shape.Hosts b p.1)
    (q : Place) : (g.keepAll placed).keptAt q =
      placed.foldl (fun kept p => if p.1 = q then some p.2 else kept) (g.keptAt q) := by
  induction placed generalizing g with
  | nil => rfl
  | cons p placed ih =>
      rw [List.forall_mem_cons] at h
      obtain ⟨b, hb⟩ := h.1
      refine (ih (g := g.keep p.2 p.1) fun p' hp' => ?_).trans ?_
      · rw [shape_keep]
        exact h.2 p' hp'
      · rw [List.foldl_cons]
        congr 1
        split
        · rename_i hsame
          exact hsame ▸ keptAt_keep_self hb p.2
        · rename_i hne
          exact keptAt_keep_of_ne (Ne.symm hne) p.2

theorem foldl_kept_of_forall_ne {placed : List (Place × Ty)} {q : Place} {kept : Option Ty}
    (h : ∀ p ∈ placed, p.1 ≠ q) :
    placed.foldl (fun kept p => if p.1 = q then some p.2 else kept) kept = kept := by
  induction placed with
  | nil => rfl
  | cons p placed ih =>
      rw [List.forall_mem_cons] at h
      rw [List.foldl_cons, if_neg h.1]
      exact ih h.2

/-- Of several types at one place that are all the same, that one is kept. -/
theorem foldl_kept_of_mem {placed : List (Place × Ty)} {q : Place} {kept : Option Ty} {t : Ty}
    (hall : ∀ u, (q, u) ∈ placed → u = t) (h : kept = some t ∨ (q, t) ∈ placed) :
    placed.foldl (fun kept p => if p.1 = q then some p.2 else kept) kept = some t := by
  induction placed generalizing kept with
  | nil => exact h.resolve_right List.not_mem_nil
  | cons p placed ih =>
      refine ih (fun u hu => hall u (List.mem_cons_of_mem p hu)) ?_
      dsimp only
      split
      · rename_i hsame
        exact .inl (congrArg some (hall p.2 (List.mem_cons.2 (.inl (Prod.ext hsame.symm rfl)))))
      · rename_i hne
        refine h.imp_right fun hmem => (List.mem_cons.1 hmem).resolve_left ?_
        rintro rfl
        exact hne rfl

/-- What is kept in the end has been put there or was there before. -/
theorem mem_or_of_foldl_kept {placed : List (Place × Ty)} {q : Place} {kept : Option Ty} {t : Ty}
    (h : placed.foldl (fun kept p => if p.1 = q then some p.2 else kept) kept = some t) :
    (q, t) ∈ placed ∨ kept = some t ∧ ∀ p ∈ placed, p.1 ≠ q := by
  induction placed generalizing kept with
  | nil => exact .inr ⟨h, fun p hp => (List.not_mem_nil hp).elim⟩
  | cons p placed ih =>
      rcases ih h with hmem | ⟨hkept, hnone⟩
      · exact .inl (List.mem_cons_of_mem p hmem)
      · dsimp only at hkept
        split at hkept
        · rename_i hsame
          cases hkept
          exact .inl (List.mem_cons.2 (.inl (Prod.ext hsame.symm rfl)))
        · rename_i hne
          exact .inr ⟨hkept, List.forall_mem_cons.2 ⟨hne, hnone⟩⟩

theorem keptAt_applyTo (h : g.shape.Hosts b place) (s : Subst) (members : BlockSet) :
    (g.applyTo s members).keptAt place =
      if b ∈ members then (g.keptAt place).map s.apply else g.keptAt place := by
  cases place with
  | socket x =>
      obtain ⟨role, hs⟩ := h
      obtain ⟨socket, hsocket, hb⟩ := shape_site_eq_some.1 hs
      obtain ⟨rfl, -⟩ := Prod.mk.inj hb
      simp only [keptAt, tyAt, applyTo, Std.ExtTreeMap.getElem?_map, hsocket, Option.map_some,
        Option.bind_some, Std.ExtTreeSet.contains_iff_mem]
      split <;> rfl
  | param c name =>
      obtain ⟨rfl, p, hp⟩ := h
      obtain ⟨block, hblock, -⟩ := shape_ports_eq_some.1 hp
      simp only [keptAt, paramAt, applyTo, Std.ExtTreeMap.getElem?_map, hblock, Option.map_some,
        Option.bind_some, Std.ExtTreeSet.contains_iff_mem]
      split
      · exact Std.ExtTreeMap.getElem?_map
      · rfl

theorem warningAt_modifyBlock {f : Block → Block} (hf : ∀ block, (f block).warning = block.warning)
    (c : BlockId) :
    (g.modifyBlock c f).warningAt b = g.warningAt b := by
  rw [warningAt, warningAt, getElem?_modifyBlock]
  split
  · cases g.blocks[b]? with
    | none => rfl
    | some block => exact hf block
  · rfl

/-- Types are no warnings. -/
theorem warningAt_annotated (types : Std.ExtTreeMap Tag Ty) (members : BlockSet) :
    (g.annotated types members).warningAt b = g.warningAt b := by
  have hkeep : ∀ (placed : List (Place × Ty)) (g : Graph),
      (g.keepAll placed).warningAt b = g.warningAt b := by
    intro placed
    induction placed with
    | nil => exact fun g => rfl
    | cons p placed ih =>
        intro g
        refine (ih (g.keep p.2 p.1)).trans ?_
        obtain ⟨place, t⟩ := p
        cases place with
        | socket s => rfl
        | param c name => exact warningAt_modifyBlock (fun _ => by rfl) c
  refine (hkeep _ _).trans ?_
  simp only [warningAt, applyTo, Std.ExtTreeMap.getElem?_map]
  cases g.blocks[b]? with
  | none => rfl
  | some block =>
      simp only [Option.map_some, Option.bind_some]
      split <;> rfl

end Graph

namespace GraphM

open Plugboard.Graph

variable {g : Graph} {b : BlockId} {loose : Set BlockId}

theorem ends_setPlace {place : Place} (h : g.shape.Hosts b place) (t : Ty) :
    Ends (setPlace place t) g (fun _ g' => g' = g.keep t place) fun _ => False := by
  cases place with
  | socket s =>
      obtain ⟨role, hs⟩ := h
      exact ends_updateSocket hs _
  | param c name =>
      obtain ⟨rfl, p, hp⟩ := h
      obtain ⟨block, hblock, -⟩ := shape_ports_eq_some.1 hp
      simp only [setPlace, updateBlock, ends_bind, ends_ask, block_eq_ok.2 hblock, ends_modify]
      rfl

theorem ends_setPlaces {placed : List (Place × Ty)} (h : ∀ p ∈ placed, ∃ b, g.shape.Hosts b p.1)
    (s : Subst) :
    Ends (placed.forM fun p => setPlace p.1 (s.apply p.2)) g
      (fun _ g' => g' = g.keepAll (settledAt s placed)) fun _ => False := by
  induction placed generalizing g with
  | nil => rfl
  | cons p placed ih =>
      rw [List.forall_mem_cons] at h
      obtain ⟨b, hb⟩ := h.1
      change Ends (setPlace p.1 (s.apply p.2) >>= fun _ => placed.forM _) g _ _
      rw [ends_bind]
      refine (ends_setPlace hb _).imp (fun _ g' hg' => ?_) fun _ => id
      subst hg'
      exact ih fun q hq => shape_keep (g := g) _ _ ▸ h.2 q hq

/-- Types of tags that are there are kept, around the blocks of the tags. -/
theorem ends_annotate (h : g.shape.Regular loose) {types : Std.ExtTreeMap Tag Ty}
    (htags : ∀ (tag : Tag) t, types[tag]? = some t → ∃ b, g.shape.Tagged b tag) :
    Ends (annotate types) g (fun members g' => g' = g.annotated types members ∧
      ∀ c, c ∈ members ↔ ∃ p ∈ g.ownPlaces types, ∃ b, g.shape.Hosts b p.1 ∧
        g.shape.Connected b c) fun _ => False := by
  have hentries : ∀ entry ∈ types.toList, ∃ b, g.shape.Tagged b entry.1 := fun entry hentry =>
    htags entry.1 entry.2 (Std.ExtTreeMap.mem_toList_iff_getElem?_eq_some.1 hentry)
  have hown : ∀ p ∈ g.ownPlaces types, ∃ b, g.shape.Hosts b p.1 := by
    intro p hp
    obtain ⟨entry, hentry, hp⟩ := List.mem_flatMap.1 hp
    obtain ⟨b, hb⟩ := hentries entry hentry
    exact ⟨b, (exists_places_eq h hb entry.2).2 p hp⟩
  rw [annotate, ends_bind]
  refine (Ends.mapM_eq (r := fun entry => g.placesOf entry.1 entry.2) fun entry hentry => ?_).imp
    (fun own g₁ hasked => ?_) fun _ => id
  · obtain ⟨b, hb⟩ := hentries entry hentry
    rw [ends_ask, (exists_places_eq h hb entry.2).1]
    exact ⟨rfl, rfl⟩
  obtain ⟨rfl, rfl⟩ := hasked
  have hflatten : (types.toList.map fun entry => g₁.placesOf entry.1 entry.2).flatten =
      g₁.ownPlaces types := List.flatMap_def.symm
  rw [hflatten, ends_bind]
  choose! blockOf hblockOf using hown
  refine (Ends.mapM_eq (r := blockOf) fun p hp => ?_).imp (fun blocks g₂ hasked => ?_) fun _ => id
  · rw [ends_ask, placeBlock_eq (hblockOf p hp)]
    exact ⟨rfl, rfl⟩
  obtain ⟨rfl, rfl⟩ := hasked
  have hlive : ∀ b ∈ (g₂.ownPlaces types).map blockOf, ∃ p, g₂.shape.ports b = some p := by
    intro b hb
    obtain ⟨p, hp, rfl⟩ := List.mem_map.1 hb
    exact (hblockOf p hp).live h.toWired
  obtain ⟨members, hmembers, hmem⟩ := exists_components_eq h.toWired hlive
  have hplaced : ∀ p ∈ g₂.placed types members, ∃ b, g₂.shape.Hosts b p.1 := by
    intro p hp
    rcases List.mem_append.1 hp with hp | hp
    · exact ⟨blockOf p, hblockOf p hp⟩
    · obtain ⟨output, input, c, slot, hplace, -, -, hsite, -⟩ := exists_of_mem_followers hp
      rw [hplace]
      exact ⟨c, _, hsite⟩
  rw [ends_bind, ends_ask, hmembers]
  dsimp only
  rw [ends_bind, ends_get, ends_bind, ends_ask]
  have hagreement : g₂.agreement (g₂.ownPlaces types ++ g₂.followers (g₂.ownPlaces types) members) =
      .ok (g₂.agreed (g₂.placed types members)) := agreement_eq hplaced
  rw [hagreement]
  dsimp only
  rw [ends_bind, ends_modify, ends_bind]
  refine (ends_setPlaces (fun p hp => ?_) _).imp (fun _ g' hg' => ?_) fun _ => id
  · obtain ⟨b, hb⟩ := hplaced p hp
    exact ⟨b, (shape_applyTo (g := g₂) _ members).symm ▸ hb⟩
  subst hg'
  refine ends_pure.2 ⟨rfl, fun c => (hmem c).trans ⟨?_, ?_⟩⟩
  · rintro ⟨b, hb, hbc⟩
    obtain ⟨p, hp, rfl⟩ := List.mem_map.1 hb
    exact ⟨p, hp, _, hblockOf p hp, hbc⟩
  · rintro ⟨p, hp, b, hb, hbc⟩
    exact ⟨b, List.mem_map.2 ⟨p, hp, (hblockOf p hp).unique hb⟩, hbc⟩

end GraphM

end Plugboard
