import Plugboard.Proofs.Outcome
import Plugboard.Proofs.Reshaping

/-!
# What the edits of a graph do to its shape

Every edit of a graph succeeds where the graph is wired, and is described by what it does to
the shape. Edits that only touch types or warnings leave the shape as it is.
-/

namespace Plugboard

namespace Graph

variable {g : Graph} {b : BlockId} {s : SocketId}

theorem getElem?_modifySocket (f : Socket → Socket) (x : SocketId) :
    (g.modifySocket s f).sockets[x]? = if s = x then g.sockets[x]?.map f else g.sockets[x]? := by
  by_cases hx : s = x <;> simp [modifySocket, Std.ExtTreeMap.getElem?_modify, hx]

theorem getElem?_modifyBlock (f : Block → Block) (x : BlockId) :
    (g.modifyBlock b f).blocks[x]? = if b = x then g.blocks[x]?.map f else g.blocks[x]? := by
  by_cases hx : b = x <;> simp [modifyBlock, Std.ExtTreeMap.getElem?_modify, hx]

theorem shape_modifySocket {f : Socket → Socket}
    (hf : ∀ socket, (f socket).block = socket.block ∧ (f socket).role = socket.role ∧
      (f socket).peer = socket.peer) : (g.modifySocket s f).shape = g.shape := by
  ext x y
  · rfl
  · simp only [shape, getElem?_modifySocket]
    split <;> simp [hf]
  · simp only [shape, getElem?_modifySocket]
    split <;> simp [Option.bind_map, hf]
  · rfl
  · rfl

theorem shape_modifyBlock {f : Block → Block}
    (hf : ∀ block, (f block).kind = block.kind ∧ (f block).output = block.output ∧
      (f block).inputs = block.inputs) : (g.modifyBlock b f).shape = g.shape := by
  ext x y
  · simp only [shape, getElem?_modifyBlock]
    split <;> simp [hf]
  all_goals rfl

/-- A block whose ports are set anew. -/
theorem shape_modifyBlock_ports {f : Block → Block} {block : Block}
    (hb : g.blocks[b]? = some block) :
    (g.modifyBlock b f).shape =
      g.shape.setPorts b (some ⟨(f block).kind, (f block).output, (f block).inputs⟩) := by
  ext x y
  · simp only [shape, Shape.setPorts, getElem?_modifyBlock, eq_comm (a := b)]
    split
    · rename_i hx
      subst hx
      simp [hb]
    · rfl
  all_goals rfl

@[simp]
theorem shape_applyTo (subst : Subst) (blocks : BlockSet) :
    (g.applyTo subst blocks).shape = g.shape := by
  ext x y
  · simp only [shape, applyTo, Std.ExtTreeMap.getElem?_map, Option.map_map]
    cases g.blocks[x]? with
    | none => rfl
    | some block => simp only [Option.map_some, Function.comp_apply]; split <;> rfl
  · simp only [shape, applyTo, Std.ExtTreeMap.getElem?_map, Option.map_map]
    cases g.sockets[x]? with
    | none => rfl
    | some socket => simp only [Option.map_some, Function.comp_apply]; split <;> rfl
  · simp only [shape, applyTo, Std.ExtTreeMap.getElem?_map]
    cases g.sockets[x]? with
    | none => rfl
    | some socket => simp only [Option.map_some, Option.bind_some]; split <;> rfl
  · rfl
  · rfl

theorem shape_setPeer {peer : Option SocketId} {r : BlockId × Role}
    (hs : g.shape.site s = some r) :
    (g.setPeer s peer).shape =
      { g.shape with peer := fun x => if x = s then peer else g.shape.peer x } := by
  obtain ⟨socket, hsocket, -⟩ := shape_site_eq_some.1 hs
  ext x y
  · rfl
  · simp only [shape, setPeer, getElem?_modifySocket]
    split <;> simp
  · simp only [shape, setPeer, getElem?_modifySocket, eq_comm (a := s)]
    split
    · rename_i hx
      subst hx
      simp [hsocket]
    · rfl
  · rfl
  · rfl

theorem shape_setPeer_setPeer {a : SocketId} {r r' : BlockId × Role}
    (ha : g.shape.site a = some r) (hs : g.shape.site s = some r') :
    ((g.setPeer a (some s)).setPeer s (some a)).shape = g.shape.join a s := by
  have hmid : (g.setPeer a (some s)).shape.site s = some r' := by
    rw [shape_setPeer ha]
    exact hs
  rw [shape_setPeer hmid, shape_setPeer ha]
  rfl

theorem shape_setPeer_none (g : Graph) (s : SocketId) :
    (g.setPeer s none).shape =
      { g.shape with peer := fun x => if x = s then none else g.shape.peer x } := by
  cases hs : g.shape.site s with
  | some r => exact shape_setPeer hs
  | none =>
      have hsocket : g.sockets[s]? = none := Option.map_eq_none_iff.1 hs
      ext x y
      · rfl
      · simp only [shape, setPeer, getElem?_modifySocket]
        split <;> simp
      · simp only [shape, setPeer, getElem?_modifySocket, eq_comm (a := s)]
        split
        · rename_i hx
          simp [hx, hsocket]
        · rfl
      · rfl
      · rfl

theorem shape_eraseSocket (g : Graph) (s : SocketId) :
    (g.eraseSocket s).shape =
      { g.shape with
        site := fun x => if x = s then none else g.shape.site x
        peer := fun x => if x = s then none else g.shape.peer x } := by
  have hget : ∀ x, (g.eraseSocket s).sockets[x]? = if x = s then none else g.sockets[x]? := by
    intro x
    by_cases hx : x = s
    · simp [eraseSocket, hx]
    · simp [eraseSocket, Std.ExtTreeMap.getElem?_erase, hx, Ne.symm hx]
  ext x y
  · rfl
  · simp only [shape, hget]
    split <;> rfl
  · simp only [shape, hget]
    split <;> rfl
  · rfl
  · rfl

theorem shape_eraseBlock (g : Graph) (b : BlockId) :
    ({ g with blocks := g.blocks.erase b } : Graph).shape = g.shape.setPorts b none := by
  ext x y
  · by_cases hx : x = b
    · simp [shape, Shape.setPorts, hx]
    · simp [shape, Shape.setPorts, hx, Std.ExtTreeMap.getElem?_erase, Ne.symm hx]
  all_goals rfl

/-- A new socket, on a shape where its id is not taken. -/
theorem grown_addSocket (hlt : g.shape.Bounded)
    (b : BlockId) (role : Role) (ty : Ty) :
    (g.addSocket b role ty).2.shape.site (g.addSocket b role ty).1 = some (b, role) ∧
      Shape.Grown b [(g.addSocket b role ty).1] g.shape (g.addSocket b role ty).2.shape := by
  have hget : ∀ x : SocketId, (g.addSocket b role ty).2.sockets[x]? =
      if x = ⟨g.nextSocket⟩ then some ⟨b, role, some ty, none⟩ else g.sockets[x]? := by
    intro x
    by_cases hx : x = ⟨g.nextSocket⟩
    · simp [addSocket, hx]
    · simp [addSocket, Std.ExtTreeMap.getElem?_insert, hx, Ne.symm hx]
  have hnone : g.sockets[(⟨g.nextSocket⟩ : SocketId)]? = none := by
    cases hs : g.sockets[(⟨g.nextSocket⟩ : SocketId)]? with
    | none => rfl
    | some socket =>
        exact absurd (hlt _ _ (shape_site_eq_some.2 ⟨socket, hs, rfl⟩)) (Nat.lt_irrefl _)
  have hsite : (g.addSocket b role ty).2.shape.site ⟨g.nextSocket⟩ = some (b, role) := by
    simp [shape, hget]
  refine ⟨hsite, rfl, ?_, rfl, Nat.le_succ _, fun s hs => ?_, fun s hs => ?_⟩
  · funext x
    simp only [shape, hget]
    split
    · rename_i hx
      rw [hx, hnone]
      rfl
    · rfl
  · simp only [shape, hget]
    rw [if_neg]
    exact fun hx => hs (List.mem_singleton.2 hx)
  · obtain rfl := List.mem_singleton.1 hs
    exact ⟨le_rfl, Nat.lt_succ_self _, role, hsite⟩

theorem grown_addInputs (hlt : g.shape.Bounded) (b : BlockId) (ins : List (String × Ty)) :
    Shape.Grown b (g.addInputs b ins).1 g.shape (g.addInputs b ins).2.shape ∧
      (g.addInputs b ins).2.shape.Seats b (g.addInputs b ins).1 (ins.map (·.1)) := by
  induction ins generalizing g with
  | nil => exact ⟨.refl b g.shape, rfl⟩
  | cons entry ins ih =>
      obtain ⟨slot, ty⟩ := entry
      obtain ⟨hs, hfirst⟩ := grown_addSocket hlt b (.input slot) ty
      obtain ⟨hrest, hseats⟩ := ih (hfirst.bounded hlt)
      refine ⟨hfirst.trans hrest, congrArg₂ List.cons ?_ hseats⟩
      exact (hrest.site_of_lt (hfirst.bounded hlt _ _ hs)).trans hs

/-- A block that is put on top of its new sockets. -/
theorem added_of_grown {mid : Graph} {p : Ports} {params : Std.ExtTreeMap String Ty}
    {slots : List String} (h : Shape.Grown ⟨g.nextBlock⟩ p.sockets g.shape mid.shape)
    (hout : ∀ s, p.output = some s → mid.shape.site s = some (⟨g.nextBlock⟩, .output))
    (hseats : mid.shape.Seats ⟨g.nextBlock⟩ p.inputs slots) :
    Shape.Added ⟨g.nextBlock⟩ p slots g.shape
      ({ mid with
        blocks := mid.blocks.insert ⟨g.nextBlock⟩ ⟨p.kind, p.output, p.inputs, params, none⟩
        nextBlock := mid.nextBlock + 1 } : Graph).shape where
  ports := by
    funext x
    simp only [Shape.setPorts, ← h.ports]
    by_cases hx : x = ⟨g.nextBlock⟩
    · simp [shape, hx]
    · simp [shape, hx, Std.ExtTreeMap.getElem?_insert, Ne.symm hx]
  peer := h.peer
  new := ⟨le_rfl, Nat.lt_succ_of_le (le_of_eq h.nextBlock.symm)⟩
  le := h.le
  old := h.old
  fresh s hs := ⟨(h.fresh s hs).1, (h.fresh s hs).2.1⟩
  output := hout
  seats := hseats

theorem added_addBlock (h : g.shape.Bounded) (kind : BlockKind) (layout : Layout) :
    ∃ p : Ports, p.kind = kind ∧ p.output.isSome = layout.output.isSome ∧
      Shape.Added (g.addBlock kind layout).1 p (layout.inputs.map (·.1)) g.shape
        (g.addBlock kind layout).2.shape := by
  obtain ⟨output, ins, params⟩ := layout
  cases output with
  | none =>
      obtain ⟨hgrown, hseats⟩ := grown_addInputs h ⟨g.nextBlock⟩ ins
      refine ⟨⟨kind, none, (g.addInputs ⟨g.nextBlock⟩ ins).1⟩, rfl, rfl, ?_⟩
      exact added_of_grown hgrown (fun s hs => by cases hs) hseats
  | some ty =>
      obtain ⟨hs, hfirst⟩ := grown_addSocket h ⟨g.nextBlock⟩ .output ty
      have hbounded := hfirst.bounded h
      obtain ⟨hgrown, hseats⟩ := grown_addInputs hbounded ⟨g.nextBlock⟩ ins
      let g₁ := (g.addSocket ⟨g.nextBlock⟩ .output ty).2
      refine ⟨⟨kind, some ⟨g.nextSocket⟩, (g₁.addInputs ⟨g.nextBlock⟩ ins).1⟩, rfl, rfl, ?_⟩
      refine added_of_grown (hfirst.trans hgrown) (fun s hs' => ?_) hseats
      obtain rfl := Option.some.inj hs'
      exact (hgrown.site_of_lt (hbounded _ _ hs)).trans hs

end Graph

namespace Shape

variable {sh : Shape} {s : SocketId} {ss : List SocketId} {slot : String}

/-- The last of some sockets that goes by a slot. -/
def lastIn (sh : Shape) (ss : List SocketId) (slot : String) : Option SocketId :=
  ss.reverse.find? fun s => sh.slot s == some slot

theorem lastIn_cons : sh.lastIn (s :: ss) slot =
    (sh.lastIn ss slot).or (if sh.slot s = some slot then some s else none) := by
  simp [lastIn, List.find?_append, List.find?_singleton]

theorem of_lastIn (h : sh.lastIn ss slot = some s) : s ∈ ss ∧ sh.slot s = some slot :=
  ⟨List.mem_reverse.1 (List.mem_of_find?_eq_some h), by simpa using List.find?_some h⟩

theorem exists_lastIn_eq (hs : s ∈ ss) (hslot : sh.slot s = some slot) :
    ∃ x, sh.lastIn ss slot = some x := by
  rw [← Option.isSome_iff_exists, lastIn, List.find?_isSome]
  exact ⟨s, List.mem_reverse.2 hs, by simp [hslot]⟩

theorem lastIn_eq_some_iff (h : (ss.map sh.slot).Nodup) :
    sh.lastIn ss slot = some s ↔ s ∈ ss ∧ sh.slot s = some slot := by
  refine ⟨of_lastIn, fun ⟨hs, hslot⟩ => ?_⟩
  obtain ⟨x, hx⟩ := exists_lastIn_eq hs hslot
  obtain ⟨hmem, hslot'⟩ := of_lastIn hx
  exact List.inj_on_of_nodup_map h hmem hs (hslot'.trans hslot.symm) ▸ hx

/-- It is an input of the block in that slot. -/
theorem Anchored.site_of_lastIn (h : sh.Anchored) {b : BlockId} {p : Ports}
    (hp : sh.ports b = some p) (hlast : sh.lastIn p.inputs slot = some s) :
    sh.site s = some (b, .input slot) := by
  obtain ⟨hmem, hslot⟩ := of_lastIn hlast
  obtain ⟨slot', hs⟩ := h.input hp hmem
  rw [Shape.slot, hs] at hslot
  exact Option.some.inj hslot ▸ hs

end Shape

namespace GraphM

variable {g : Graph} {b : BlockId} {s : SocketId}

open Plugboard.Graph

theorem ends_unlink {r : BlockId × Role} (hs : g.shape.site s = some r) :
    Ends (unlink s) g (fun peer g' => peer = g.shape.peer s ∧ g'.shape = g.shape.cut s)
      fun _ => False := by
  obtain ⟨socket, hsocket, -⟩ := shape_site_eq_some.1 hs
  have hpeer : g.shape.peer s = socket.peer := by simp [shape, hsocket]
  rw [unlink]
  simp only [ends_bind, ends_ask, Graph.socket, hsocket, ends_modify, hpeer]
  cases hd : socket.peer with
  | none =>
      refine ⟨rfl, (shape_setPeer_none g s).trans ?_⟩
      simp [Shape.cut, hpeer, hd]
  | some d =>
      refine ⟨rfl, (shape_setPeer_none _ d).trans ?_⟩
      simp only [shape_setPeer_none, Shape.cut, hpeer, hd, Option.some.injEq]
      congr
      funext x
      by_cases hx : x = s
      · simp [hx]
      · by_cases hxd : x = d <;> simp [hx, hxd, eq_comm (a := d)]

theorem cut_drop (h : g.shape.Linked) (s : SocketId) :
    ({ g.shape.cut s with
        site := fun x => if x = s then none else g.shape.site x
        peer := fun x => if x = s then none else (g.shape.cut s).peer x } : Shape) =
      g.shape.drop [s] := by
  ext x y
  · rfl
  · simp [Shape.drop]
  · by_cases hx : x = s
    · simp [hx, Shape.drop]
    · simp only [if_neg hx, Shape.peer_cut h, Shape.peer_drop, List.mem_singleton]
  · rfl
  · rfl

theorem ends_dropSocket (h : g.shape.Linked) {r : BlockId × Role} (hs : g.shape.site s = some r) :
    Ends (dropSocket s) g (fun peer g' => peer = g.shape.peer s ∧ g'.shape = g.shape.drop [s])
      fun _ => False := by
  rw [dropSocket, ends_bind]
  refine (ends_unlink hs).imp (fun peer g' ⟨hpeer, hg'⟩ => ?_) fun _ => id
  simp only [ends_bind, ends_modify, ends_pure]
  refine ⟨hpeer, (shape_eraseSocket g' s).trans ?_⟩
  rw [hg']
  exact cut_drop h s

/-- Sockets that are dropped one after the other. -/
theorem ends_dropSockets (h : g.shape.Linked) {ss : List SocketId} (hnodup : ss.Nodup)
    (hlive : ∀ s ∈ ss, ∃ r, g.shape.site s = some r) :
    Ends (ss.forM fun s => discard (dropSocket s)) g (fun _ g' => g'.shape = g.shape.drop ss)
      fun _ => False := by
  induction ss generalizing g with
  | nil => exact (Shape.drop_nil g.shape).symm
  | cons s ss ih =>
      obtain ⟨r, hr⟩ := hlive s List.mem_cons_self
      rw [List.nodup_cons] at hnodup
      change Ends ((fun _ => ()) <$> dropSocket s >>= fun _ => ss.forM _) g _ _
      rw [ends_bind, ends_map]
      refine (ends_dropSocket h hr).imp (fun _ g' ⟨_, hg'⟩ => ?_) fun _ => id
      refine (ih (hg' ▸ h.drop [s]) hnodup.2 fun x hx => ?_).imp (fun _ g'' hg'' => ?_) fun _ => id
      · obtain ⟨r', hr'⟩ := hlive x (List.mem_cons_of_mem s hx)
        refine ⟨r', hg' ▸ Shape.site_drop.2 ⟨hr', fun hmem => ?_⟩⟩
        exact hnodup.1 (List.mem_singleton.1 hmem ▸ hx)
      · rw [hg'', hg', Shape.drop_cons]

/-- Inputs that are dropped one after the other, and what was plugged into them. -/
theorem ends_dropInputs (h : g.shape.Linked) {ss : List SocketId} (hnodup : ss.Nodup)
    (hlive : ∀ s ∈ ss, ∃ r, g.shape.site s = some r) :
    Ends (dropInputs ss) g (fun detached g' => g'.shape = g.shape.drop ss ∧
      ∀ s ∈ ss, ∀ d c role, g.shape.peer s = some d → d ∉ ss → g.shape.site d = some (c, role) →
        c ∈ detached) fun _ => False := by
  induction ss generalizing g with
  | nil => exact ⟨(Shape.drop_nil g.shape).symm, fun s hs => (List.not_mem_nil hs).elim⟩
  | cons s ss ih =>
      obtain ⟨r, hr⟩ := hlive s List.mem_cons_self
      rw [List.nodup_cons] at hnodup
      have hrest : ∀ g' : Graph, g'.shape = g.shape.cut s →
          Ends (dropInputs ss) (g'.eraseSocket s) (fun detached g'' =>
            g''.shape = g.shape.drop (s :: ss) ∧ ∀ x ∈ ss, ∀ d c role, g.shape.peer x = some d →
              d ∉ s :: ss → g.shape.site d = some (c, role) → c ∈ detached) fun _ => False := by
        intro g' hg'
        have hshape : (g'.eraseSocket s).shape = g.shape.drop [s] := by
          rw [shape_eraseSocket, hg']
          exact cut_drop h s
        have hne : ∀ {x}, x ∈ ss → x ∉ [s] := fun hx hmem =>
          hnodup.1 (List.mem_singleton.1 hmem ▸ hx)
        refine (ih (hshape ▸ h.drop [s]) hnodup.2 fun x hx => ?_).imp
          (fun detached g'' hended => ⟨?_, fun x hx d c role hpeer hd hsite => ?_⟩) fun _ => id
        · obtain ⟨r', hr'⟩ := hlive x (List.mem_cons_of_mem s hx)
          exact ⟨r', hshape ▸ Shape.site_drop.2 ⟨hr', hne hx⟩⟩
        · rw [hended.1, hshape, Shape.drop_cons]
        · rw [List.mem_cons, not_or, ← List.mem_singleton] at hd
          refine hended.2 x hx d c role ?_ hd.2 ?_
          · exact hshape ▸ Shape.peer_drop.2 ⟨hpeer, hne hx, hd.1⟩
          · exact hshape ▸ Shape.site_drop.2 ⟨hsite, hd.1⟩
      rw [dropInputs, ends_bind]
      refine (ends_unlink hr).imp (fun peer g' hunlinked => ?_) fun _ => id
      obtain ⟨hpeer, hg'⟩ := hunlinked
      cases hd : peer with
      | none =>
          simp only [pure_bind, ends_bind, ends_modify]
          refine (hrest g' hg').imp (fun detached g'' hended => ⟨hended.1, ?_⟩) fun _ => id
          rw [List.forall_mem_cons]
          refine ⟨fun d c role hlink => ?_, hended.2⟩
          cases hd.symm.trans (hpeer.trans hlink)
      | some d =>
          have hlink : g.shape.peer s = some d := hpeer.symm.trans hd
          obtain ⟨r', hr'⟩ := h.site_of_peer hlink
          have hpeerSite : g'.shape.site d = some r' := hg' ▸ hr'
          obtain ⟨other, hother, hsite⟩ := shape_site_eq_some.1 hpeerSite
          simp only [ends_bind, ends_ask, Graph.socket, hother, ends_pure, ends_modify]
          refine (hrest g' hg').imp (fun detached g'' hended => ⟨hended.1, ?_⟩) fun _ => id
          rw [List.forall_mem_cons]
          refine ⟨fun d' c role hlink' _ hc => ?_, fun x hx d' c role hlink' hd' hc =>
            List.mem_append_right _ (hended.2 x hx d' c role hlink' hd' hc)⟩
          cases hlink.symm.trans hlink'
          cases hr'.symm.trans hc
          exact List.mem_append_left _ (List.mem_singleton.2 (Prod.mk.inj hsite).1.symm)

theorem ends_removeBlock (h : g.shape.Wired) {p : Ports} (hp : g.shape.ports b = some p) :
    Ends (removeBlock b) g
      (fun _ g' => g'.shape = (g.shape.drop p.sockets).setPorts b none) fun _ => False := by
  obtain ⟨block, hblock, rfl⟩ := shape_ports_eq_some.1 hp
  have hlists := h.lists hp
  rw [removeBlock]
  simp only [ends_bind, ends_ask, Graph.block, hblock]
  refine (ends_dropSockets h.toLinked hlists.nodup fun s hs => ?_).imp
    (fun _ g' hg' => ?_) fun _ => id
  · obtain ⟨role, hsite⟩ := (hlists.mem_iff s).1 hs
    exact ⟨_, hsite⟩
  · simp only [ends_modify, ends_pure]
    exact (shape_eraseBlock g' b).trans (congrArg (Shape.setPorts · b none) hg')

theorem ends_updateSocket {r : BlockId × Role} (hs : g.shape.site s = some r)
    (f : Socket → Socket) :
    Ends (updateSocket s f) g (fun _ g' => g' = g.modifySocket s f) fun _ => False := by
  obtain ⟨socket, hsocket, -⟩ := shape_site_eq_some.1 hs
  simp only [updateSocket, ends_bind, ends_ask, Graph.socket, hsocket, ends_modify]

theorem ends_link_eq {a : SocketId} {r r' : BlockId × Role} (ha : g.shape.site a = some r)
    (hs : g.shape.site s = some r') :
    Ends (link a s) g (fun _ g' => g' = (g.setPeer a (some s)).setPeer s (some a))
      fun _ => False := by
  obtain ⟨first, hfirst, -⟩ := shape_site_eq_some.1 ha
  obtain ⟨second, hsecond, -⟩ := shape_site_eq_some.1 hs
  have hmid : (g.setPeer a (some s)).shape.site s = some r' := by
    rw [shape_setPeer ha]
    exact hs
  obtain ⟨socket, hsocket, -⟩ := shape_site_eq_some.1 hmid
  rw [setPeer] at hsocket
  rw [link]
  simp only [updateSocket, ends_bind, ends_ask, Graph.socket, hfirst, hsecond, ends_modify,
    hsocket]
  rfl

theorem ends_link {a : SocketId} {r r' : BlockId × Role} (ha : g.shape.site a = some r)
    (hs : g.shape.site s = some r') :
    Ends (link a s) g (fun _ g' => g'.shape = g.shape.join a s) fun _ => False :=
  (ends_link_eq ha hs).imp (fun _ _ hg' => hg' ▸ shape_setPeer_setPeer ha hs) fun _ => id

/-- A loop that enters each input under its slot finds the last input in every slot. -/
theorem ends_foldlM_insert {f : Std.ExtTreeMap String SocketId → SocketId →
      GraphM (Std.ExtTreeMap String SocketId)}
    (hstep : ∀ acc s slot, g.shape.site s = some (b, .input slot) →
      Ends (f acc s) g (fun bySlot g' => g' = g ∧ bySlot = acc.insert slot s) fun _ => False)
    {ss : List SocketId} (hinput : ∀ s ∈ ss, ∃ slot, g.shape.site s = some (b, .input slot))
    (acc : Std.ExtTreeMap String SocketId) :
    Ends (ss.foldlM f acc) g
      (fun bySlot g' => g' = g ∧ ∀ slot, bySlot[slot]? = (g.shape.lastIn ss slot).or acc[slot]?)
      fun _ => False := by
  induction ss generalizing acc with
  | nil => exact ⟨rfl, fun _ => rfl⟩
  | cons s ss ih =>
      rw [List.forall_mem_cons] at hinput
      obtain ⟨⟨slot, hs⟩, hrest⟩ := hinput
      rw [List.foldlM_cons, ends_bind]
      refine (hstep acc s slot hs).imp (fun bySlot g' hentered => ?_) fun _ => False.elim
      obtain ⟨rfl, rfl⟩ := hentered
      refine (ih hrest _).imp (fun bySlot _ h => ⟨h.1, fun slot' => ?_⟩) fun _ => id
      have hslot : g'.shape.slot s = some slot := by
        rw [Shape.slot, hs]
        rfl
      rw [h.2, Shape.lastIn_cons, hslot, Option.or_assoc]
      by_cases hsame : slot = slot'
      · simp [hsame]
      · simp [hsame, Std.ExtTreeMap.getElem?_insert]

theorem ends_inputsBySlot_last {ss : List SocketId}
    (hinput : ∀ s ∈ ss, ∃ slot, g.shape.site s = some (b, .input slot)) :
    Ends (inputsBySlot ss) g
      (fun bySlot g' => g' = g ∧ ∀ slot, bySlot[slot]? = g.shape.lastIn ss slot)
      fun _ => False := by
  refine (ends_foldlM_insert (fun acc s slot hs => ?_) hinput ∅).imp
    (fun bySlot g' h => ⟨h.1, fun slot => by simp [h.2]⟩) fun _ => id
  obtain ⟨socket, hsocket, hrole⟩ := shape_site_eq_some.1 hs
  have hself : socket.slot? = some slot := by rw [Socket.slot?, (Prod.mk.inj hrole).2]
  simp only [ends_bind, ends_ask, Graph.socket, hsocket, hself, ends_pure, and_self]

theorem ends_inputsBySlot {ss : List SocketId}
    (hinput : ∀ s ∈ ss, ∃ slot, g.shape.site s = some (b, .input slot))
    (hdistinct : (ss.map g.shape.slot).Nodup) :
    Ends (inputsBySlot ss) g (fun bySlot g' => g' = g ∧ ∀ slot s,
      bySlot[slot]? = some s ↔ s ∈ ss ∧ g.shape.site s = some (b, .input slot)) fun _ => False := by
  refine (ends_inputsBySlot_last hinput).imp (fun bySlot g' h => ⟨h.1, fun slot s => ?_⟩)
    fun _ => id
  rw [h.2, Shape.lastIn_eq_some_iff hdistinct]
  refine and_congr_right fun hs => ?_
  obtain ⟨slot', hsite⟩ := hinput s hs
  rw [Shape.slot, hsite]
  simp [Role.slot?]

/-- Inputs are taken from the old ones of the same slots or else made. -/
structure Reused (b : BlockId) (old : Std.ExtTreeMap String SocketId) (slots : List String)
    (sh sh' : Shape) (inputs news : List SocketId) (left : Std.ExtTreeMap String SocketId) :
    Prop where
  grown : Shape.Grown b news sh sh'
  seats : sh'.Seats b inputs slots
  news_mem : ∀ s ∈ news, s ∈ inputs
  keeps : ∀ {slot s}, old[slot]? = some s → slot ∈ slots → s ∈ inputs
  left : ∀ slot, left[slot]? = if slot ∈ slots then none else old[slot]?

theorem ends_reuseInputs {old : Std.ExtTreeMap String SocketId} {ins : List (String × Ty)}
    (hlt : g.shape.Bounded)
    (hold : ∀ {slot s}, old[slot]? = some s → g.shape.site s = some (b, .input slot)) :
    Ends (reuseInputs b old ins) g (fun r g' => ∃ news,
      Reused b old (ins.map (·.1)) g.shape g'.shape r.1 news r.2) fun _ => False := by
  induction ins generalizing g old with
  | nil =>
      refine ⟨[], Shape.Grown.refl b g.shape, rfl, fun s hs => hs, ?_, fun slot => ?_⟩
      · intro slot s _ hslot
        exact (List.not_mem_nil hslot).elim
      · exact (if_neg List.not_mem_nil).symm
  | cons entry ins ih =>
      obtain ⟨slot, ty⟩ := entry
      -- the rest, once there is a socket in the first slot
      have hrest : ∀ (s : SocketId) (g' : Graph) (new : List SocketId),
          Shape.Grown b new g.shape g'.shape → g'.shape.site s = some (b, .input slot) →
          (∀ x ∈ new, x = s) → (∀ x, old[slot]? = some x → x = s) →
          Ends (reuseInputs b (old.erase slot) ins) g' (fun r g'' => ∃ news,
            Reused b old (slot :: ins.map (·.1)) g.shape g''.shape (s :: r.1) news r.2)
            fun _ => False := by
        intro s g' new hgrown hs hnew hkeep
        have hlt' := hgrown.bounded hlt
        have herase : ∀ slot', slot ≠ slot' → (old.erase slot)[slot']? = old[slot']? := by
          intro slot' hne
          simp [Std.ExtTreeMap.getElem?_erase, hne]
        have hold' : ∀ {slot' x}, (old.erase slot)[slot']? = some x →
            g'.shape.site x = some (b, .input slot') := by
          intro slot' x hx
          by_cases hslot : slot = slot'
          · simp [hslot] at hx
          · have hsite := hold ((herase slot' hslot).symm.trans hx)
            exact (hgrown.site_of_lt (hlt _ _ hsite)).trans hsite
        refine (ih hlt' hold').imp (fun r g'' ⟨news, h⟩ =>
          ⟨new ++ news, hgrown.trans h.grown, ?_, ?_, ?_, ?_⟩) fun _ => id
        · exact congrArg₂ List.cons ((h.grown.site_of_lt (hlt' _ _ hs)).trans hs) h.seats
        · intro x hx
          rcases List.mem_append.1 hx with hx | hx
          · exact List.mem_cons.2 (.inl (hnew x hx))
          · exact List.mem_cons_of_mem s (h.news_mem x hx)
        · intro slot' x hx hslot'
          by_cases hslot : slot = slot'
          · exact List.mem_cons.2 (.inl (hkeep x (hslot ▸ hx)))
          · have hmem := (List.mem_cons.1 hslot').resolve_left (Ne.symm hslot)
            exact List.mem_cons_of_mem s (h.keeps ((herase slot' hslot).trans hx) hmem)
        · intro slot'
          rw [h.left]
          by_cases hslot : slot = slot'
          · simp [hslot]
          · simp only [herase slot' hslot, List.mem_cons, Ne.symm hslot, false_or]
      rw [reuseInputs]
      cases hget : old[slot]? with
      | some s =>
          have hs := hold hget
          obtain ⟨socket, hsocket, -⟩ := shape_site_eq_some.1 hs
          have hshape : (g.modifySocket s fun socket => { socket with ty := some ty }).shape =
              g.shape := shape_modifySocket fun _ => ⟨rfl, rfl, rfl⟩
          simp only [setTy, updateSocket, ends_bind, ends_ask, Graph.socket, hsocket, ends_modify,
            ends_pure]
          refine hrest s _ [] ?_ (hshape ▸ hs) (fun x hx => ?_) fun x hx => ?_
          · exact hshape ▸ Shape.Grown.refl b g.shape
          · exact (List.not_mem_nil hx).elim
          · exact Option.some.inj (hx.symm.trans hget)
      | none =>
          obtain ⟨hs, hgrown⟩ := grown_addSocket hlt b (.input slot) ty
          simp only [ends_bind, ends_act, ends_pure]
          refine hrest _ _ _ hgrown hs (fun x hx => List.mem_singleton.1 hx) fun x hx => ?_
          rw [hget] at hx
          cases hx

namespace Reused

variable {old left : Std.ExtTreeMap String SocketId} {slots : List String} {sh sh' : Shape}
  {inputs news : List SocketId} {p : Ports}

/-- The sockets that are left over go by the slots that are not asked for. -/
theorem mem_values (h : Reused b old slots sh sh' inputs news left) :
    s ∈ left.values ↔ ∃ slot, slot ∉ slots ∧ old[slot]? = some s := by
  simp only [mem_values_iff, h.left, Option.ite_none_left_eq_some]

theorem nodup_values (h : Reused b old slots sh sh' inputs news left)
    (hold : ∀ {slot s}, old[slot]? = some s → sh.site s = some (b, .input slot)) :
    left.values.Nodup := by
  refine Plugboard.nodup_values fun {slot slot' s} hs hs' => ?_
  rw [h.left, Option.ite_none_left_eq_some] at hs hs'
  simpa [hold hs.2] using hold hs'.2

/-- What is left over is not reused. -/
theorem not_mem_values (h : Reused b old slots sh sh' inputs news left) (hsh : sh.Bounded)
    (hold : ∀ {slot s}, old[slot]? = some s → sh.site s = some (b, .input slot)) (hs : s ∈ inputs) :
    s ∉ left.values := by
  intro hmem
  obtain ⟨slot, hslot, hsite⟩ := h.seats.exists_slot hs
  obtain ⟨slot', hslot', hget⟩ := h.mem_values.1 hmem
  have hsite' := hold hget
  rw [h.grown.site_of_lt (hsh _ _ hsite'), hsite'] at hsite
  cases hsite
  exact hslot' hslot

end Reused

end GraphM

end Plugboard
