import Plugboard.Proofs.Keeping

/-!
# How blocks look

What is drawn of a block is its sockets with their types and its type parameters. An edit of a graph
changes the looks of few blocks, and here it is said of each edit which these may be: no others, if
the edit succeeds. Blocks must not share sockets for that, and this is the case as long as no socket
gets an id that a block has on its list already.
-/

namespace Plugboard

def Block.sockets (block : Block) : List SocketId := block.output.toList ++ block.inputs

/-- What is drawn of a block: the sockets, each with its role and type if it is there, and the type
parameters. -/
structure Face where
  ports : List (SocketId × Option (Role × Option Ty))
  params : Std.ExtTreeMap String Ty
  deriving DecidableEq

namespace Graph

def port? (g : Graph) (s : SocketId) : Option (Role × Option Ty) :=
  g.sockets[s]?.map fun socket => (socket.role, socket.ty)

def face? (g : Graph) (b : BlockId) : Option Face :=
  g.blocks[b]?.map fun block => ⟨block.sockets.map fun s => (s, g.port? s), block.params⟩

/-- The id was given out, and not to a socket of any other block. -/
structure Owns (g : Graph) (b : BlockId) (s : SocketId) : Prop where
  lt : s.index < g.nextSocket
  block : ∀ {socket : Socket}, g.sockets[s]? = some socket → socket.block = b

/-- No block lists a socket of another one, nor an id that is still to be given out. -/
structure Owned (g : Graph) : Prop where
  lt : ∀ {s : SocketId} {socket : Socket}, g.sockets[s]? = some socket → s.index < g.nextSocket
  listed : ∀ {b : BlockId} {block : Block} {s : SocketId}, g.blocks[b]? = some block →
    s ∈ block.sockets → g.Owns b s

variable {g g' g'' : Graph} {b : BlockId} {s : SocketId} {K K' : Set BlockId}

theorem Owned.owns (h : g.Owned) {socket : Socket} (hs : g.sockets[s]? = some socket) :
    g.Owns socket.block s :=
  ⟨h.lt hs, fun hs' => congrArg Socket.block (Option.some.inj (hs'.symm.trans hs))⟩

theorem Owned.of_wired (h : g.shape.Wired) : g.Owned where
  lt hs := h.socket_lt (shape_site_eq_some.2 ⟨_, hs, rfl⟩)
  listed {b block s} hblock hs := by
    have hp := shape_ports_eq_some.2 ⟨block, hblock, rfl⟩
    obtain ⟨role, hsite⟩ := ((h.lists hp).mem_iff s).1 hs
    refine ⟨h.socket_lt hsite, fun {socket} hsocket => ?_⟩
    obtain ⟨socket', hsocket', heq⟩ := shape_site_eq_some.1 hsite
    cases hsocket.symm.trans hsocket'
    exact congrArg Prod.fst heq

/-- The blocks of `g'` look as in `g`, but for those in `K`, and they share no sockets. -/
structure Redraws (K : Set BlockId) (g g' : Graph) : Prop where
  owned : g'.Owned
  owns : ∀ {b s}, g.Owns b s → g'.Owns b s
  face : ∀ {b face}, b ∉ K → g'.face? b = some face → g.face? b = some face

namespace Redraws

theorem refl (h : g.Owned) : Redraws K g g := ⟨h, id, fun _ => id⟩

theorem trans (h : Redraws K g g') (h' : Redraws K g' g'') : Redraws K g g'' where
  owned := h'.owned
  owns hs := h'.owns (h.owns hs)
  face hb hface := h.face hb (h'.face hb hface)

theorem mono (h : Redraws K g g') (hsub : K ⊆ K') : Redraws K' g g' :=
  { h with face := fun hb => h.face fun hmem => hb (hsub hmem) }

/-- Blocks that are gone do not count. -/
theorem of_contains (h : Redraws K g g') (hsub : ∀ b ∈ K, g'.contains b → b ∈ K') :
    Redraws K' g g' :=
  { h with
    face := fun {b face} hb hface => by
      refine h.face (fun hmem => hb (hsub b hmem ?_)) hface
      obtain ⟨block, hblock, -⟩ := Option.map_eq_some_iff.1 hface
      exact contains_iff.2 ⟨_, shape_ports_eq_some.2 ⟨block, hblock, rfl⟩⟩ }

end Redraws

section Edits

variable (h : g.Owned)

include h

/-- Where only sockets are changed, a block looks as before if its own sockets do. -/
theorem redraws_of_sockets (hblocks : g'.blocks = g.blocks) (hle : g.nextSocket ≤ g'.nextSocket)
    (hsockets : ∀ {s : SocketId} {socket : Socket}, g'.sockets[s]? = some socket →
      s.index < g'.nextSocket ∧ (s.index < g.nextSocket →
        ∃ socket', g.sockets[s]? = some socket' ∧ socket'.block = socket.block))
    (hports : ∀ {b s}, b ∉ K → g.Owns b s → g'.port? s = g.port? s) : Redraws K g g' := by
  have howns : ∀ {b s}, g.Owns b s → g'.Owns b s := fun hs =>
    ⟨hs.lt.trans_le hle, fun hsocket => by
      obtain ⟨socket', hsocket', heq⟩ := (hsockets hsocket).2 hs.lt
      exact heq.symm.trans (hs.block hsocket')⟩
  refine ⟨⟨fun hs => (hsockets hs).1, fun hblock hs => ?_⟩, howns, fun {b face} hb hface => ?_⟩
  · exact howns (h.listed (hblocks ▸ hblock) hs)
  · obtain ⟨block, hblock, rfl⟩ := Option.map_eq_some_iff.1 hface
    rw [hblocks] at hblock
    rw [face?, hblock, Option.map_some]
    congr 2
    exact List.map_congr_left fun s hs => by rw [hports hb (h.listed hblock hs)]

/-- Where only blocks are changed, a block looks as before if it lists the same sockets and has the
same type parameters. -/
theorem redraws_of_blocks (hsockets : g'.sockets = g.sockets)
    (hnext : g'.nextSocket = g.nextSocket)
    (hblocks : ∀ {b : BlockId} {block : Block}, g'.blocks[b]? = some block →
      (∀ s ∈ block.sockets, g.Owns b s) ∧ (b ∉ K → ∃ block', g.blocks[b]? = some block' ∧
        block'.sockets = block.sockets ∧ block'.params = block.params)) : Redraws K g g' := by
  have howns : ∀ {b s}, g.Owns b s → g'.Owns b s := fun hs =>
    ⟨hnext ▸ hs.lt, fun hsocket => hs.block (hsockets ▸ hsocket)⟩
  refine ⟨⟨fun hs => hnext ▸ h.lt (hsockets ▸ hs), fun hblock hs => ?_⟩, howns,
    fun {b face} hb hface => ?_⟩
  · exact howns ((hblocks hblock).1 _ hs)
  · obtain ⟨block, hblock, rfl⟩ := Option.map_eq_some_iff.1 hface
    obtain ⟨block', hblock', hlist, hparams⟩ := (hblocks hblock).2 hb
    rw [face?, hblock', Option.map_some, hlist, hparams]
    congr 2
    exact List.map_congr_left fun s _ => by rw [port?, port?, hsockets]

theorem redraws_modifySocket {f : Socket → Socket}
    (hblock : ∀ socket, (f socket).block = socket.block)
    (hport : ∀ socket, g.sockets[s]? = some socket → socket.block ∈ K ∨
      (f socket).role = socket.role ∧ (f socket).ty = socket.ty) :
    Redraws K g (g.modifySocket s f) := by
  refine redraws_of_sockets h rfl le_rfl (fun {x socket} hx => ?_) fun {b x} hb hx => ?_
  · rw [getElem?_modifySocket] at hx
    split at hx
    · obtain ⟨socket', hsocket', rfl⟩ := Option.map_eq_some_iff.1 hx
      exact ⟨h.lt hsocket', fun _ => ⟨socket', hsocket', (hblock socket').symm⟩⟩
    · exact ⟨h.lt hx, fun _ => ⟨socket, hx, rfl⟩⟩
  · rw [port?, port?, getElem?_modifySocket]
    split
    · rename_i heq
      subst heq
      cases hsocket : g.sockets[s]? with
      | none => rfl
      | some socket =>
          obtain ⟨hrole, hty⟩ := (hport socket hsocket).resolve_left (hx.block hsocket ▸ hb)
          simp [hrole, hty]
    · rfl

theorem redraws_eraseSocket (hs : g.Owns b s) (hb : b ∈ K) : Redraws K g (g.eraseSocket s) := by
  have hget : ∀ x : SocketId, (g.eraseSocket s).sockets[x]? =
      if s = x then none else g.sockets[x]? := fun x => by
    by_cases hx : s = x <;> simp [eraseSocket, Std.ExtTreeMap.getElem?_erase, hx]
  refine redraws_of_sockets h rfl le_rfl (fun {x socket} hx => ?_) fun {c x} hc hx => ?_
  · rw [hget] at hx
    split at hx
    · cases hx
    · exact ⟨h.lt hx, fun _ => ⟨socket, hx, rfl⟩⟩
  · rw [port?, port?, hget]
    split
    · rename_i heq
      subst heq
      cases hsocket : g.sockets[s]? with
      | none => rfl
      | some socket => exact (hc ((hx.block hsocket).symm.trans (hs.block hsocket) ▸ hb)).elim
    · rfl

/-- A new socket changes the looks of no block before one lists it. -/
theorem redraws_addSocket (b : BlockId) (role : Role) (ty : Ty) :
    Redraws K g (g.addSocket b role ty).2 ∧
      (g.addSocket b role ty).2.Owns b (g.addSocket b role ty).1 := by
  have hget : ∀ x : SocketId, (g.addSocket b role ty).2.sockets[x]? =
      if (⟨g.nextSocket⟩ : SocketId) = x then some ⟨b, role, some ty, none⟩ else g.sockets[x]? :=
    fun x => by
      by_cases hx : (⟨g.nextSocket⟩ : SocketId) = x <;>
        simp [addSocket, Std.ExtTreeMap.getElem?_insert, hx]
  have hne : ∀ {x : SocketId}, x.index < g.nextSocket → (⟨g.nextSocket⟩ : SocketId) ≠ x := by
    rintro x hlt rfl
    exact Nat.lt_irrefl _ hlt
  refine ⟨redraws_of_sockets h rfl (Nat.le_succ _) (fun {x socket} hx => ?_)
    fun {c x} _ hx => ?_, Nat.lt_succ_self _, fun {socket} hsocket => ?_⟩
  · rw [hget] at hx
    split at hx
    · rename_i heq
      exact ⟨heq ▸ Nat.lt_succ_self _, fun hlt => (hne hlt heq).elim⟩
    · exact ⟨(h.lt hx).trans (Nat.lt_succ_self _), fun _ => ⟨socket, hx, rfl⟩⟩
  · rw [port?, port?, hget, if_neg (hne hx.lt)]
  · rw [hget] at hsocket
    obtain rfl := Option.some.inj ((if_pos rfl).symm.trans hsocket)
    rfl

theorem redraws_addInputs (b : BlockId) (ins : List (String × Ty)) :
    Redraws K g (g.addInputs b ins).2 ∧
      ∀ s ∈ (g.addInputs b ins).1, (g.addInputs b ins).2.Owns b s := by
  induction ins generalizing g with
  | nil => exact ⟨.refl h, fun s hs => (List.not_mem_nil hs).elim⟩
  | cons entry ins ih =>
      obtain ⟨hfirst, hs⟩ := redraws_addSocket h (K := K) b (.input entry.1) entry.2
      obtain ⟨hrest, hss⟩ := ih hfirst.owned
      exact ⟨hfirst.trans hrest, List.forall_mem_cons.2 ⟨hrest.owns hs, hss⟩⟩

theorem redraws_insertBlock {block : Block} {nextBlock : Nat}
    (hblock : ∀ s ∈ block.sockets, g.Owns b s) (hb : b ∈ K) :
    Redraws K g { g with blocks := g.blocks.insert b block, nextBlock } := by
  refine redraws_of_blocks h rfl rfl fun {c block'} hc => ?_
  rw [Std.ExtTreeMap.getElem?_insert] at hc
  split at hc
  · rename_i heq
    obtain rfl := Std.LawfulEqCmp.eq_of_compare heq
    cases hc
    exact ⟨hblock, fun hnew => (hnew hb).elim⟩
  · exact ⟨fun s hs => h.listed hc hs, fun _ => ⟨block', hc, rfl, rfl⟩⟩

theorem redraws_addBlock (kind : BlockKind) (layout : Layout) :
    Redraws {(g.addBlock kind layout).1} g (g.addBlock kind layout).2 := by
  obtain ⟨output, ins, params⟩ := layout
  cases output with
  | none =>
      obtain ⟨hins, hss⟩ := redraws_addInputs h (K := {(⟨g.nextBlock⟩ : BlockId)}) ⟨g.nextBlock⟩ ins
      exact hins.trans (redraws_insertBlock hins.owned hss rfl)
  | some ty =>
      obtain ⟨hout, hs⟩ := redraws_addSocket h (K := {(⟨g.nextBlock⟩ : BlockId)})
        ⟨g.nextBlock⟩ .output ty
      obtain ⟨hins, hss⟩ := redraws_addInputs hout.owned (K := {(⟨g.nextBlock⟩ : BlockId)})
        ⟨g.nextBlock⟩ ins
      refine (hout.trans hins).trans (redraws_insertBlock hins.owned ?_ rfl)
      exact List.forall_mem_cons.2 ⟨hins.owns hs, hss⟩

theorem redraws_modifyBlock {f : Block → Block} (hb : b ∈ K)
    (hf : ∀ block, g.blocks[b]? = some block → ∀ s ∈ (f block).sockets, g.Owns b s) :
    Redraws K g (g.modifyBlock b f) := by
  refine redraws_of_blocks h rfl rfl fun {c block} hc => ?_
  rw [getElem?_modifyBlock] at hc
  split at hc
  · rename_i heq
    subst heq
    obtain ⟨block', hblock', rfl⟩ := Option.map_eq_some_iff.1 hc
    exact ⟨hf block' hblock', fun hnew => (hnew hb).elim⟩
  · exact ⟨fun s hs => h.listed hc hs, fun _ => ⟨block, hc, rfl, rfl⟩⟩

/-- The kind of a block and its warning are not drawn from its face. -/
theorem redraws_modifyBlock_same {f : Block → Block}
    (hf : ∀ block, (f block).sockets = block.sockets ∧ (f block).params = block.params) :
    Redraws K g (g.modifyBlock b f) := by
  refine redraws_of_blocks h rfl rfl fun {c block} hc => ?_
  rw [getElem?_modifyBlock] at hc
  split at hc
  · obtain ⟨block', hblock', rfl⟩ := Option.map_eq_some_iff.1 hc
    rw [(hf block').1, (hf block').2]
    exact ⟨fun s hs => h.listed hblock' hs, fun _ => ⟨block', hblock', rfl, rfl⟩⟩
  · exact ⟨fun s hs => h.listed hc hs, fun _ => ⟨block, hc, rfl, rfl⟩⟩

/-- A block that is gone has no looks. -/
theorem redraws_eraseBlock (b : BlockId) :
    Redraws K g { g with blocks := g.blocks.erase b } := by
  refine redraws_of_blocks h rfl rfl fun {c block} hc => ?_
  rw [Std.ExtTreeMap.getElem?_erase] at hc
  split at hc
  · cases hc
  · exact ⟨fun s hs => h.listed hc hs, fun _ => ⟨block, hc, rfl, rfl⟩⟩

/-- A substitution on some blocks changes the looks of those on which it changes a type. -/
theorem redraws_applyTo {subst : Subst} {blocks : BlockSet}
    (hsockets : ∀ {s : SocketId} {socket : Socket} {t : Ty}, g.sockets[s]? = some socket →
      socket.block ∈ blocks → socket.ty = some t → subst.apply t ≠ t → socket.block ∈ K)
    (hparams : ∀ {b : BlockId} {block : Block} {name : String} {t : Ty},
      g.blocks[b]? = some block → b ∈ blocks → block.params[name]? = some t →
        subst.apply t ≠ t → b ∈ K) :
    Redraws K g (g.applyTo subst blocks) := by
  have hmid : Redraws K g { g with sockets := (g.applyTo subst blocks).sockets } := by
    refine redraws_of_sockets h rfl le_rfl (fun {s socket} hs => ?_) fun {b s} hb hs => ?_
    · rw [applyTo, Std.ExtTreeMap.getElem?_map] at hs
      obtain ⟨socket', hsocket', rfl⟩ := Option.map_eq_some_iff.1 hs
      refine ⟨h.lt hsocket', fun _ => ⟨socket', hsocket', ?_⟩⟩
      split <;> rfl
    · simp only [port?, applyTo, Std.ExtTreeMap.getElem?_map, Option.map_map]
      refine Option.map_congr fun socket hsocket => ?_
      rw [Function.comp_apply]
      split
      · rename_i hmem
        have hty : socket.ty.map subst.apply = socket.ty := by
          cases hty : socket.ty with
          | none => rfl
          | some t =>
              by_contra hne
              refine hb (hs.block hsocket ▸ hsockets hsocket ?_ hty fun heq => hne ?_)
              · exact Std.ExtTreeSet.mem_iff_contains.2 hmem
              · rw [Option.map_some, heq]
        rw [hty]
      · rfl
  refine hmid.trans (redraws_of_blocks hmid.owned rfl rfl fun {b block} hblock => ?_)
  rw [applyTo, Std.ExtTreeMap.getElem?_map] at hblock
  obtain ⟨block', hblock', rfl⟩ := Option.map_eq_some_iff.1 hblock
  refine ⟨fun s hs => hmid.owns (h.listed hblock' ?_), fun hb => ⟨block', hblock', ?_, ?_⟩⟩
  · split at hs <;> exact hs
  · split <;> rfl
  · split
    · rename_i hmem
      refine Std.ExtTreeMap.ext_getElem? fun name => ?_
      rw [Std.ExtTreeMap.getElem?_map]
      cases ht : block'.params[name]? with
      | none => rfl
      | some t =>
          by_contra hne
          refine hb (hparams hblock' (Std.ExtTreeSet.mem_iff_contains.2 hmem) ht fun heq => hne ?_)
          rw [Option.map_some, heq]
    · rfl

end Edits

theorem mem_changedBy {subst : Subst} {blocks : BlockSet} : b ∈ g.changedBy subst blocks ↔
    b ∈ blocks ∧ ((∃ (s : SocketId) (socket : Socket) (t : Ty), g.sockets[s]? = some socket ∧
      socket.block = b ∧ socket.ty = some t ∧ subst.apply t ≠ t) ∨
      ∃ (block : Block) (name : String) (t : Ty), g.blocks[b]? = some block ∧
        block.params[name]? = some t ∧ subst.apply t ≠ t) := by
  rw [changedBy, Std.ExtTreeSet.mem_ofList, List.contains_iff_mem, List.mem_append]
  simp only [List.mem_map, List.mem_filter, mem_values_iff, Bool.and_eq_true, Option.any_eq_true,
    List.any_eq_true, bne_iff_ne]
  constructor
  · rintro (⟨socket, ⟨⟨s, hs⟩, hmem, t, ht, hne⟩, rfl⟩ |
      ⟨⟨b, block⟩, ⟨hblock, hmem, t, ⟨name, ht⟩, hne⟩, rfl⟩)
    · exact ⟨Std.ExtTreeSet.mem_iff_contains.2 hmem, .inl ⟨s, socket, t, hs, rfl, ht, hne⟩⟩
    · exact ⟨Std.ExtTreeSet.mem_iff_contains.2 hmem, .inr ⟨block, name, t,
        Std.ExtTreeMap.mem_toList_iff_getElem?_eq_some.1 hblock, ht, hne⟩⟩
  · rintro ⟨hmem, ⟨s, socket, t, hs, rfl, ht, hne⟩ | ⟨block, name, t, hblock, ht, hne⟩⟩
    · exact .inl ⟨socket, ⟨⟨s, hs⟩, Std.ExtTreeSet.mem_iff_contains.1 hmem, t, ht, hne⟩, rfl⟩
    · exact .inr ⟨(b, block), ⟨Std.ExtTreeMap.mem_toList_iff_getElem?_eq_some.2 hblock,
        Std.ExtTreeSet.mem_iff_contains.1 hmem, t, ⟨name, ht⟩, hne⟩, rfl⟩

theorem mem_of_component {members : BlockSet} (h : g.component b = .ok members) : b ∈ members := by
  have hworld : ∀ {c following}, g.neighbours c = .ok following → c ∈ g.world := fun hc =>
    let ⟨_, hchildren, _⟩ := bind_eq_ok.1 hc
    mem_world_of_children hchildren
  exact (explored_of_explore hworld g.depth g.card_unseen_empty_lt h).1.enters b
    (List.mem_singleton_self b)

/-- A fold that takes in every block and gives none up collects all. -/
theorem mem_of_foldlM {f : BlockSet → BlockId → Except Fault BlockSet} {blocks : List BlockId}
    {acc members : BlockSet}
    (hstep : ∀ {acc b acc'}, f acc b = .ok acc' → b ∈ acc' ∧ ∀ c ∈ acc, c ∈ acc')
    (h : blocks.foldlM f acc = .ok members) :
    (∀ c ∈ acc, c ∈ members) ∧ ∀ c ∈ blocks, c ∈ members := by
  induction blocks generalizing acc with
  | nil =>
      cases h
      exact ⟨fun _ => id, fun c hc => (List.not_mem_nil hc).elim⟩
  | cons b bs ih =>
      rw [List.foldlM_cons] at h
      obtain ⟨mid, hmid, h⟩ := bind_eq_ok.1 h
      obtain ⟨hb, hkept⟩ := hstep hmid
      obtain ⟨hmembers, hbs⟩ := ih h
      exact ⟨fun c hc => hmembers c (hkept c hc), List.forall_mem_cons.2 ⟨hmembers b hb, hbs⟩⟩

/-- A block is among those that it is plugged together with. -/
theorem mem_of_components {blocks : List BlockId} {members : BlockSet}
    (h : g.components blocks = .ok members) (hb : b ∈ blocks) : b ∈ members := by
  rw [components] at h
  refine (mem_of_foldlM (fun {acc c acc'} hstep => ?_) h).2 b hb
  split at hstep
  · rename_i hmem
    cases hstep
    exact ⟨Std.ExtTreeSet.mem_iff_contains.2 hmem, fun _ => id⟩
  · obtain ⟨found, hfound, heq⟩ := bind_eq_ok.1 hstep
    cases heq
    exact ⟨Std.ExtTreeSet.mem_union_iff.2 (.inr (mem_of_component hfound)),
      fun c hc => Std.ExtTreeSet.mem_union_iff.2 (.inl hc)⟩

/-- The place is on a block of `K`. -/
def Bears (g : Graph) (K : Set BlockId) : Place → Prop
  | .socket s => ∃ b ∈ K, g.Owns b s
  | .param b _ => b ∈ K

/-- A place that a block was found for is on it. -/
theorem Owned.bears_of_placeBlock (h : g.Owned) {placed : List (Place × Ty)} {blocks : List BlockId}
    (hblocks : placed.mapM (fun p => g.placeBlock p.1) = .ok blocks) (hK : ∀ c ∈ blocks, c ∈ K)
    {p : Place × Ty} (hp : p ∈ placed) : g.Bears K p.1 := by
  have : Nonempty BlockId := ⟨⟨0⟩⟩
  obtain ⟨blockOf, rfl, hblockOf⟩ := mapM_eq_ok.1 hblocks
  have hmem := hK _ (List.mem_map_of_mem hp)
  have hblock := hblockOf p hp
  cases hplace : p.1 with
  | socket s =>
      rw [hplace] at hblock
      obtain ⟨socket, hsocket, heq⟩ := map_eq_ok.1 hblock
      exact ⟨_, hmem, heq ▸ h.owns (socket_eq_ok.1 hsocket)⟩
  | param b name =>
      rw [hplace] at hblock
      exact Except.ok.inj hblock ▸ hmem

theorem Redraws.setPeer (h : Redraws K g g') (s : SocketId) (peer : Option SocketId) :
    Redraws K g (g'.setPeer s peer) :=
  h.trans (redraws_modifySocket h.owned (fun _ => rfl) fun _ _ => .inr ⟨rfl, rfl⟩)

end Graph

namespace GraphM

open Plugboard.Graph

variable {g g₀ : Graph} {b : BlockId} {s : SocketId} {K : Set BlockId}

theorem carries_ask {α : Type} (f : Graph → Except Fault α) {P : Graph → Prop} :
    Carries P (ask f) :=
  .of_preserves (preserves_ask f)

theorem carries_link (a b : SocketId) : Carries (Redraws K g₀) (link a b) :=
  .bind (carries_ask _) fun _ =>
    .bind (.bind (carries_ask _) fun _ => .modify fun _ hg => hg.setPeer a (some b)) fun _ =>
      .bind (carries_ask _) fun _ => .modify fun _ hg => hg.setPeer b (some a)

theorem carries_unlink (s : SocketId) : Carries (Redraws K g₀) (unlink s) := by
  refine .bind (carries_ask _) fun socket => .bind (.modify fun _ hg => hg.setPeer s none) ?_
  intro _
  cases socket.peer with
  | none => exact .pure _
  | some peer => exact .bind (.modify fun _ hg => hg.setPeer peer none) fun _ => .pure _

theorem carries_setTy (hs : g₀.Owns b s) (hb : b ∈ K) (ty : Option Ty) :
    Carries (Redraws K g₀) (setTy s ty) := by
  refine .bind (carries_ask _) fun _ => .modify fun g hg => hg.trans ?_
  exact redraws_modifySocket hg.owned (fun _ => rfl) fun _ hsocket =>
    .inl ((hg.owns hs).block hsocket ▸ hb)

theorem carries_dropSocket (hs : g₀.Owns b s) (hb : b ∈ K) :
    Carries (Redraws K g₀) (dropSocket s) :=
  .bind (carries_unlink s) fun _ => .bind
    (.modify fun _ hg => hg.trans (redraws_eraseSocket hg.owned (hg.owns hs) hb)) fun _ => .pure _

/-- Changes of a block that are not drawn. -/
theorem carries_updateBlock {f : Block → Block}
    (hf : ∀ block, (f block).sockets = block.sockets ∧ (f block).params = block.params) :
    Carries (Redraws K g₀) (updateBlock b f) :=
  .bind (carries_ask _) fun _ => .modify fun _ hg => hg.trans (redraws_modifyBlock_same hg.owned hf)

theorem carries_setWarning (b : BlockId) (warning : Option String) :
    Carries (Redraws K g₀) (setWarning b warning) :=
  carries_updateBlock fun _ => ⟨rfl, rfl⟩

/-- The other blocks look as before when a block is removed. -/
theorem ends_removeBlock_redraws (h : g.Owned) (b : BlockId) :
    Ends (removeBlock b) g (fun _ => Redraws ∅ g) fun _ => True := by
  rw [removeBlock, ends_bind, ends_ask, Graph.block]
  cases hblock : g.blocks[b]? with
  | none => trivial
  | some block =>
      have hdrop : Carries (Redraws {b} g) (block.sockets.forM fun s => discard (dropSocket s)) :=
        .forM fun s hs => .map (carries_dropSocket (h.listed hblock hs) rfl)
      refine ends_bind.2 ((hdrop g (.refl h)).imp (fun _ g' hg' => ?_) fun _ => id)
      refine (hg'.trans (redraws_eraseBlock hg'.owned b)).of_contains ?_
      rintro _ rfl hcontains
      simp [contains] at hcontains

theorem ends_inputsBySlot_mem (inputs : List SocketId) :
    Ends (inputsBySlot inputs) g (fun bySlot g' => g' = g ∧
      ∀ (slot : String) (s : SocketId), bySlot[slot]? = some s → s ∈ inputs) fun _ => True := by
  refine Ends.foldlM (I := fun bySlot g' => g' = g ∧
    ∀ (slot : String) (s : SocketId), bySlot[slot]? = some s → s ∈ inputs)
    (fun s hs bySlot g' ⟨hg', hslots⟩ => ?_) ⟨rfl, by simp⟩
  subst hg'
  rw [ends_bind, ends_ask]
  cases g'.socket s with
  | error e => trivial
  | ok socket =>
      dsimp only
      split
      · refine ⟨rfl, fun slot' s' hs' => ?_⟩
        rw [Std.ExtTreeMap.getElem?_insert] at hs'
        split at hs'
        · exact Option.some.inj hs' ▸ hs
        · exact hslots slot' s' hs'
      · exact ⟨rfl, hslots⟩

/-- A block gets inputs of its own, and some of the old ones are left over. -/
theorem ends_reuseInputs_redraws (h : g.Owned) {old : Std.ExtTreeMap String SocketId}
    (hold : ∀ (slot : String) (s : SocketId), old[slot]? = some s → g.Owns b s)
    (ins : List (String × Ty)) :
    Ends (reuseInputs b old ins) g (fun r g' => Redraws {b} g g' ∧ (∀ s ∈ r.1, g'.Owns b s) ∧
      ∀ (slot : String) (s : SocketId), r.2[slot]? = some s → g'.Owns b s) fun _ => True := by
  induction ins generalizing g old with
  | nil => exact ⟨.refl h, fun s hs => (List.not_mem_nil hs).elim, hold⟩
  | cons entry ins ih =>
      obtain ⟨slot, ty⟩ := entry
      have hrest : ∀ {g₁ s}, Redraws {b} g g₁ → g₁.Owns b s →
          Ends (do
            let r ← reuseInputs b (old.erase slot) ins
            return (s :: r.1, r.2)) g₁ (fun r g' => Redraws {b} g g' ∧
              (∀ s ∈ r.1, g'.Owns b s) ∧
              ∀ (slot : String) (s : SocketId), r.2[slot]? = some s → g'.Owns b s)
            fun _ => True := fun {g₁ s} hg₁ hs => by
        rw [ends_bind]
        refine (ih hg₁.owned fun slot' s' hs' => hg₁.owns (hold slot' s' ?_)).imp
          (fun r g' hrest => ?_) fun _ => id
        · rw [Std.ExtTreeMap.getElem?_erase] at hs'
          split at hs'
          · cases hs'
          · exact hs'
        · obtain ⟨hg', hins, hleft⟩ := hrest
          exact ⟨hg₁.trans hg', List.forall_mem_cons.2 ⟨hg'.owns hs, hins⟩, hleft⟩
      rw [reuseInputs]
      split
      · rename_i s hs
        have hown := hold slot s hs
        rw [ends_bind]
        refine (carries_setTy hown (Set.mem_singleton b) (some ty) g (.refl h)).imp
          (fun _ g₁ hg₁ => ?_) fun _ => id
        exact hrest hg₁ (hg₁.owns hown)
      · obtain ⟨hg₁, hs⟩ := redraws_addSocket h b (.input slot) ty
        exact hrest hg₁ hs

theorem carries_dropInputs {ss : List SocketId} (hss : ∀ s ∈ ss, g₀.Owns b s) (hb : b ∈ K) :
    Carries (Redraws K g₀) (dropInputs ss) := by
  induction ss with
  | nil => exact .pure _
  | cons s ss ih =>
      rw [List.forall_mem_cons] at hss
      rw [dropInputs]
      refine .bind (carries_unlink s) fun peer? => ?_
      have hrest : ∀ detached : List BlockId, Carries (Redraws K g₀) (do
          modify (·.eraseSocket s)
          return detached ++ (← dropInputs ss)) := fun detached =>
        .bind (.modify fun _ hg => hg.trans (redraws_eraseSocket hg.owned (hg.owns hss.1) hb))
          fun _ => .bind (ih hss.2) fun _ => .pure _
      cases peer? with
      | none => exact hrest []
      | some peer => exact .bind (carries_ask _) fun _ => .bind (.pure _) hrest

theorem ends_replaceOutput_redraws (h : g.Owned) {old : Option SocketId}
    (hold : ∀ s, old = some s → g.Owns b s) (ty : Option Ty) :
    Ends (replaceOutput b old ty) g (fun r g' => Redraws {b} g g' ∧
      ∀ s, r.1 = some s → g'.Owns b s) fun _ => True := by
  cases old with
  | none =>
      cases ty with
      | none => exact ⟨.refl h, nofun⟩
      | some ty =>
          obtain ⟨hg₁, hs⟩ := redraws_addSocket h b .output ty
          exact ⟨hg₁, fun _ hs' => Option.some.inj hs' ▸ hs⟩
  | some s =>
      have hs := hold s rfl
      cases ty with
      | none =>
          rw [replaceOutput, ends_bind]
          exact (carries_dropSocket hs (Set.mem_singleton b) g (.refl h)).imp
            (fun _ _ hg' => ⟨hg', nofun⟩) fun _ => id
      | some ty =>
          rw [replaceOutput, ends_bind]
          exact (carries_setTy hs (Set.mem_singleton b) (some ty) g (.refl h)).imp
            (fun _ g' hg' => ⟨hg', fun _ hs' => Option.some.inj hs' ▸ hg'.owns hs⟩) fun _ => id

/-- A block that gets other sockets is the only one to look different. -/
theorem ends_replaceSockets_redraws (h : g.Owned) (b : BlockId) (layout : Layout) :
    Ends (replaceSockets b layout) g (fun _ => Redraws {b} g) fun _ => True := by
  rw [replaceSockets, ends_bind, ends_ask, Graph.block]
  cases hblock : g.blocks[b]? with
  | none => trivial
  | some block =>
      have hlisted : ∀ s ∈ block.sockets, g.Owns b s := fun s hs => h.listed hblock hs
      dsimp only
      rw [ends_bind]
      refine (ends_inputsBySlot_mem block.inputs).imp (fun old g₁ hslots => ?_) fun _ => id
      obtain ⟨rfl, hold⟩ := hslots
      rw [ends_bind]
      refine (ends_reuseInputs_redraws h (fun slot s hs =>
        hlisted s (List.mem_append_right _ (hold slot s hs))) layout.inputs).imp
        (fun r g₂ hreused => ?_) fun _ => id
      obtain ⟨hg₂, hins, hleft⟩ := hreused
      rw [ends_bind]
      have hdrop : Carries (Redraws {b} g₂) (dropInputs r.2.values) :=
        carries_dropInputs (fun s hs => by
          obtain ⟨slot, hslot⟩ := mem_values_iff.1 hs
          exact hleft slot s hslot) (Set.mem_singleton b)
      refine (hdrop g₂ (.refl hg₂.owned)).imp (fun detached g₃ hg₃ => ?_) fun _ => id
      rw [ends_bind]
      refine (ends_replaceOutput_redraws hg₃.owned (fun s hs => (hg₂.trans hg₃).owns
        (hlisted s (List.mem_append_left _ (Option.mem_toList.2 hs)))) layout.output).imp
        (fun r' g₄ hreplaced => ?_) fun _ => id
      obtain ⟨hg₄, hout⟩ := hreplaced
      rw [ends_bind, updateBlock, ends_bind, ends_ask]
      cases g₄.block b with
      | error e => trivial
      | ok block' =>
          refine ((hg₂.trans hg₃).trans hg₄).trans
            (redraws_modifyBlock hg₄.owned rfl fun _ _ s hs => ?_)
          rcases List.mem_append.1 hs with hs | hs
          · exact hout s (Option.mem_toList.1 hs)
          · exact hg₄.owns (hg₃.owns (hins s hs))

theorem carries_setPlace {place : Place} (hplace : g₀.Bears K place) (t : Ty) :
    Carries (Redraws K g₀) (setPlace place t) := by
  cases place with
  | socket s =>
      obtain ⟨b, hb, hs⟩ := hplace
      exact carries_setTy hs hb (some t)
  | param b name =>
      refine .bind (carries_ask _) fun _ => .modify fun g hg => hg.trans ?_
      exact redraws_modifyBlock hg.owned hplace fun block hblock s hs => hg.owned.listed hblock hs

theorem ends_mapM_ask {α β : Type} (f : α → Graph → Except Fault β) (xs : List α) :
    Ends (xs.mapM fun a => ask (f a)) g (fun bs g' => g' = g ∧ xs.mapM (f · g) = .ok bs)
      fun _ => True := by
  induction xs with
  | nil => exact ⟨rfl, rfl⟩
  | cons a as ih =>
      rw [List.mapM_cons, ends_bind, ends_ask]
      cases ha : f a g with
      | error e => trivial
      | ok b =>
          dsimp only
          rw [ends_bind]
          refine ih.imp (fun bs g' ⟨hg', hbs⟩ => ⟨hg', ?_⟩) fun _ => id
          rw [List.mapM_cons, ha, hbs]
          rfl

/-- Where types are kept, blocks look different only if they are reported. -/
theorem ends_annotate_redraws (h : g.Owned) (types : Std.ExtTreeMap Tag Ty) :
    Ends (annotate types) g (fun members => Redraws {c | c ∈ members} g) fun _ => True := by
  rw [annotate, ends_bind]
  refine (ends_mapM_ask (fun (entry : Tag × Ty) g => g.places entry.1 entry.2) types.toList).imp
    (fun own g₁ hown => ?_) fun _ => id
  obtain ⟨rfl, -⟩ := hown
  rw [ends_bind]
  refine (ends_mapM_ask (fun (p : Place × Ty) g => g.placeBlock p.1) own.flatten).imp
    (fun blocks g₂ hfound => ?_) fun _ => id
  obtain ⟨rfl, hblocks⟩ := hfound
  rw [ends_bind, ends_ask]
  cases hmembers : g₂.components blocks with
  | error e => trivial
  | ok members =>
      have hplaced : ∀ p ∈ own.flatten ++ g₂.followers own.flatten members,
          g₂.Bears {c | c ∈ members} p.1 := fun p hp => by
        rcases List.mem_append.1 hp with hp | hp
        · exact h.bears_of_placeBlock hblocks (fun c hc => mem_of_components hmembers hc) hp
        · obtain ⟨-, input, c, slot, hplace, -, hc, hsite, -⟩ := exists_of_mem_followers hp
          obtain ⟨socket, hsocket, heq⟩ := shape_site_eq_some.1 hsite
          obtain ⟨rfl, -⟩ := Prod.mk.inj heq
          exact hplace ▸ ⟨_, hc, h.owns hsocket⟩
      dsimp only
      rw [ends_bind, ends_get, ends_bind, ends_ask]
      cases g₂.agreement _ with
      | error e => trivial
      | ok subst =>
          have happly : Redraws {c | c ∈ members} g₂ (g₂.applyTo subst members) :=
            redraws_applyTo h (fun _ hmem _ _ => hmem) fun _ hmem _ _ => hmem
          dsimp only
          rw [ends_bind, ends_modify, ends_bind]
          refine (Carries.forM (fun p hp => ?_) _ happly).imp (fun _ _ hg' => hg') fun _ => id
          exact carries_setPlace (hplaced p hp) _

end GraphM

end Plugboard
