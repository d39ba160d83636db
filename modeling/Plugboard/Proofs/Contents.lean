import Plugboard.Proofs.Rewiring

/-!
# What a graph holds

Every socket of a graph has a type, and edits put nothing on sockets and type parameters but the
types that they are given. So a property of types and of kinds holds all over a graph as long as
no edit brings in anything else.
-/

namespace Plugboard

/-- The type on a socket. -/
def Graph.tyAt (g : Graph) (s : SocketId) : Option Ty := g.sockets[s]?.bind (·.ty)

/-- A type parameter of a block. -/
def Graph.paramAt (g : Graph) (b : BlockId) (name : String) : Option Ty :=
  g.blocks[b]?.bind (·.params[name]?)

/-- All types of a layout have a property. -/
structure Layout.Every (P : Ty → Prop) (layout : Layout) : Prop where
  output : ∀ t, layout.output = some t → P t
  inputs : ∀ input ∈ layout.inputs, P input.2
  params : ∀ (name : String) t, layout.params[name]? = some t → P t

theorem Layout.every_true (layout : Layout) : layout.Every fun _ => True :=
  ⟨fun _ _ => trivial, fun _ _ => trivial, fun _ _ _ => trivial⟩

theorem Layout.Every.imp {P P' : Ty → Prop} {layout : Layout} (h : layout.Every P)
    (hP : ∀ t, P t → P' t) : layout.Every P' :=
  ⟨fun t ht => hP t (h.output t ht), fun input hinput => hP _ (h.inputs input hinput),
    fun name t ht => hP t (h.params name t ht)⟩

/-- Every socket has a type, all types satisfy `P`, and all kinds satisfy `K`. -/
structure Graph.Every (P : Ty → Prop) (K : BlockKind → Prop) (g : Graph) : Prop where
  socket : ∀ {s : SocketId} {socket : Socket}, g.sockets[s]? = some socket →
    ∃ t, socket.ty = some t ∧ P t
  param : ∀ {b : BlockId} {block : Block} {name : String} {t : Ty},
    g.blocks[b]? = some block → block.params[name]? = some t → P t
  kind : ∀ {b : BlockId} {block : Block}, g.blocks[b]? = some block → K block.kind

/-- Every socket has a type. -/
abbrev Graph.Typed (g : Graph) : Prop := g.Every (fun _ => True) fun _ => True

namespace Graph.Every

variable {g : Graph} {P P' : Ty → Prop} {K K' : BlockKind → Prop}

theorem empty (P : Ty → Prop) (K : BlockKind → Prop) : Graph.empty.Every P K :=
  ⟨by simp [Graph.empty], by simp [Graph.empty], by simp [Graph.empty]⟩

theorem imp (h : g.Every P K) (hP : ∀ t, P t → P' t) (hK : ∀ kind, K kind → K' kind) :
    g.Every P' K' where
  socket hs :=
    let ⟨t, ht, hPt⟩ := h.socket hs
    ⟨t, ht, hP t hPt⟩
  param hb ht := hP _ (h.param hb ht)
  kind hb := hK _ (h.kind hb)

theorem addSocket (h : g.Every P K) (b : BlockId) (role : Role) {ty : Ty} (hty : P ty) :
    (g.addSocket b role ty).2.Every P K where
  socket {s socket} hs := by
    simp only [Graph.addSocket, Std.ExtTreeMap.getElem?_insert] at hs
    split at hs
    · cases hs
      exact ⟨ty, rfl, hty⟩
    · exact h.socket hs
  param := h.param
  kind := h.kind

theorem addInputs (h : g.Every P K) (b : BlockId) {ins : List (String × Ty)}
    (hins : ∀ input ∈ ins, P input.2) : (g.addInputs b ins).2.Every P K := by
  induction ins generalizing g with
  | nil => exact h
  | cons input ins ih =>
      rw [List.forall_mem_cons] at hins
      exact ih (h.addSocket b (.input input.1) hins.1) hins.2

theorem insertBlock (h : g.Every P K) (b : BlockId) {block : Block} (hkind : K block.kind)
    (hparams : ∀ (name : String) t, block.params[name]? = some t → P t) (next : Nat) :
    Every P K { g with blocks := g.blocks.insert b block, nextBlock := next } where
  socket := h.socket
  param {c block' name t} hc ht := by
    rw [Std.ExtTreeMap.getElem?_insert] at hc
    split at hc
    · cases hc
      exact hparams name t ht
    · exact h.param hc ht
  kind {c block'} hc := by
    rw [Std.ExtTreeMap.getElem?_insert] at hc
    split at hc
    · cases hc
      exact hkind
    · exact h.kind hc

theorem addBlock (h : g.Every P K) {kind : BlockKind} {layout : Layout} (hkind : K kind)
    (hlayout : layout.Every P) : (g.addBlock kind layout).2.Every P K := by
  obtain ⟨output, ins, params⟩ := layout
  cases output with
  | none =>
      exact (h.addInputs ⟨g.nextBlock⟩ hlayout.inputs).insertBlock _ hkind hlayout.params _
  | some ty =>
      have hout := h.addSocket ⟨g.nextBlock⟩ .output (hlayout.output ty rfl)
      exact (hout.addInputs ⟨g.nextBlock⟩ hlayout.inputs).insertBlock _ hkind hlayout.params _

theorem modifySocket (h : g.Every P K) (s : SocketId) {f : Socket → Socket}
    (hf : ∀ socket t, socket.ty = some t → P t → ∃ t', (f socket).ty = some t' ∧ P t') :
    (g.modifySocket s f).Every P K where
  socket {x socket} hx := by
    rw [getElem?_modifySocket] at hx
    split at hx
    · obtain ⟨socket', hsocket', rfl⟩ := Option.map_eq_some_iff.1 hx
      obtain ⟨t, ht, hPt⟩ := h.socket hsocket'
      exact hf socket' t ht hPt
    · exact h.socket hx
  param := h.param
  kind := h.kind

theorem setPeer (h : g.Every P K) (s : SocketId) (peer : Option SocketId) :
    (g.setPeer s peer).Every P K :=
  h.modifySocket s fun _ t ht hPt => ⟨t, ht, hPt⟩

theorem eraseSocket (h : g.Every P K) (s : SocketId) : (g.eraseSocket s).Every P K where
  socket {x socket} hx := by
    simp only [Graph.eraseSocket, Std.ExtTreeMap.getElem?_erase] at hx
    split at hx
    · cases hx
    · exact h.socket hx
  param := h.param
  kind := h.kind

theorem eraseBlock (h : g.Every P K) (b : BlockId) :
    Every P K { g with blocks := g.blocks.erase b } where
  socket := h.socket
  param {c block name t} hc ht := by
    simp only [Std.ExtTreeMap.getElem?_erase] at hc
    split at hc
    · cases hc
    · exact h.param hc ht
  kind {c block} hc := by
    simp only [Std.ExtTreeMap.getElem?_erase] at hc
    split at hc
    · cases hc
    · exact h.kind hc

theorem modifyBlock (h : g.Every P K) (b : BlockId) {f : Block → Block}
    (hkind : ∀ block, g.blocks[b]? = some block → K (f block).kind)
    (hparams : ∀ block, g.blocks[b]? = some block → ∀ (name : String) t,
      (f block).params[name]? = some t → P t) : (g.modifyBlock b f).Every P K where
  socket := h.socket
  param {c block name t} hc ht := by
    rw [getElem?_modifyBlock] at hc
    split at hc
    · rename_i hb
      subst hb
      obtain ⟨block', hblock', rfl⟩ := Option.map_eq_some_iff.1 hc
      exact hparams block' hblock' name t ht
    · exact h.param hc ht
  kind {c block} hc := by
    rw [getElem?_modifyBlock] at hc
    split at hc
    · rename_i hb
      subst hb
      obtain ⟨block', hblock', rfl⟩ := Option.map_eq_some_iff.1 hc
      exact hkind block' hblock'
    · exact h.kind hc

theorem applyTo (h : g.Every P K) {subst : Subst} (hsubst : ∀ t, P t → P (subst.apply t))
    (blocks : BlockSet) : (g.applyTo subst blocks).Every P K where
  socket {s socket} hs := by
    simp only [Graph.applyTo, Std.ExtTreeMap.getElem?_map, Option.map_eq_some_iff] at hs
    obtain ⟨socket', hsocket', rfl⟩ := hs
    obtain ⟨t, ht, hPt⟩ := h.socket hsocket'
    split
    · exact ⟨subst.apply t, congrArg (Option.map subst.apply) ht, hsubst t hPt⟩
    · exact ⟨t, ht, hPt⟩
  param {b block name t} hb ht := by
    simp only [Graph.applyTo, Std.ExtTreeMap.getElem?_map, Option.map_eq_some_iff] at hb
    obtain ⟨block', hblock', rfl⟩ := hb
    split at ht
    · simp only [Std.ExtTreeMap.getElem?_map, Option.map_eq_some_iff] at ht
      obtain ⟨t', ht', rfl⟩ := ht
      exact hsubst t' (h.param hblock' ht')
    · exact h.param hblock' ht
  kind {b block} hb := by
    simp only [Graph.applyTo, Std.ExtTreeMap.getElem?_map, Option.map_eq_some_iff] at hb
    obtain ⟨block', hblock', rfl⟩ := hb
    have hkind := h.kind hblock'
    split <;> exact hkind

end Graph.Every

namespace GraphM

open Plugboard.Graph

variable {P : Ty → Prop} {K : BlockKind → Prop}

theorem every_updateSocket (s : SocketId) {f : Socket → Socket}
    (hf : ∀ socket t, socket.ty = some t → P t → ∃ t', (f socket).ty = some t' ∧ P t') :
    Preserves (Every P K) (updateSocket s f) :=
  (preserves_ask _).bind fun _ => .modify fun _ hg => hg.modifySocket s hf

theorem every_updateBlock (b : BlockId) {f : Block → Block}
    (hkind : ∀ block, K block.kind → K (f block).kind)
    (hparams : ∀ block, (∀ (name : String) t, block.params[name]? = some t → P t) →
      ∀ (name : String) t, (f block).params[name]? = some t → P t) :
    Preserves (Every P K) (updateBlock b f) :=
  (preserves_ask _).bind fun _ => .modify fun _ hg => hg.modifyBlock b
    (fun block hb => hkind block (hg.kind hb))
    fun block hb => hparams block fun _ _ => hg.param hb

theorem every_setTy (s : SocketId) {ty : Ty} (hty : P ty) :
    Preserves (Every P K) (setTy s (some ty)) :=
  every_updateSocket s fun _ _ _ _ => ⟨ty, rfl, hty⟩

theorem every_link (a b : SocketId) : Preserves (Every P K) (link a b) :=
  (preserves_ask _).bind fun _ =>
    .bind (every_updateSocket a fun _ t ht hPt => ⟨t, ht, hPt⟩) fun _ =>
      every_updateSocket b fun _ t ht hPt => ⟨t, ht, hPt⟩

theorem every_unlink (s : SocketId) : Preserves (Every P K) (unlink s) := by
  refine (preserves_ask _).bind fun socket => .bind (.modify fun _ hg => hg.setPeer s none) ?_
  intro _
  cases socket.peer with
  | none => exact .pure _
  | some peer => exact .bind (.modify fun _ hg => hg.setPeer peer none) fun _ => .pure _

theorem every_dropSocket (s : SocketId) : Preserves (Every P K) (dropSocket s) :=
  (every_unlink s).bind fun _ => .bind (.modify fun _ hg => hg.eraseSocket s) fun _ => .pure _

theorem every_removeBlock (b : BlockId) : Preserves (Every P K) (removeBlock b) :=
  (preserves_ask _).bind fun _ => .bind (.forM fun s _ => (every_dropSocket s).map) fun _ =>
    .bind (.modify fun _ hg => hg.eraseBlock b) fun _ => .pure _

theorem preserves_inputsBySlot {Q : Graph → Prop} (ss : List SocketId) :
    Preserves Q (inputsBySlot ss) := by
  refine .foldlM _ fun bySlot s _ => (preserves_ask _).bind fun socket => ?_
  cases socket.slot? <;> exact .pure _

theorem every_reuseInputs (b : BlockId) (old : Std.ExtTreeMap String SocketId)
    {ins : List (String × Ty)} (hins : ∀ input ∈ ins, P input.2) :
    Preserves (Every P K) (reuseInputs b old ins) := by
  induction ins generalizing old with
  | nil => exact .pure _
  | cons entry ins ih =>
      obtain ⟨slot, ty⟩ := entry
      rw [List.forall_mem_cons] at hins
      rw [reuseInputs]
      have hrest : ∀ s, Preserves (Every P K)
          (do let rest ← reuseInputs b (old.erase slot) ins; return (s :: rest.1, rest.2)) :=
        fun s => (ih _ hins.2).bind fun _ => .pure _
      cases old[slot]? with
      | some s => exact .bind (every_setTy s hins.1) fun _ => .bind (.pure _) hrest
      | none => exact .bind (.modifyGet fun _ hg => hg.addSocket b _ hins.1) hrest

theorem every_dropInputs (ss : List SocketId) : Preserves (Every P K) (dropInputs ss) := by
  induction ss with
  | nil => exact .pure _
  | cons s ss ih =>
      have hrest : ∀ detached : List BlockId, Preserves (Every P K) (do
          modify (·.eraseSocket s); return detached ++ (← dropInputs ss)) :=
        fun _ => .bind (.modify fun _ hg => hg.eraseSocket s) fun _ => ih.bind fun _ => .pure _
      refine (every_unlink s).bind fun peer => ?_
      cases peer with
      | none => exact .bind (.pure _) hrest
      | some peer => exact (preserves_ask _).bind fun _ => .bind (.pure _) hrest

theorem every_replaceOutput (b : BlockId) (old : Option SocketId) {ty : Option Ty}
    (hty : ∀ t, ty = some t → P t) : Preserves (Every P K) (replaceOutput b old ty) := by
  cases old with
  | none =>
      cases ty with
      | none => exact .pure _
      | some ty =>
          exact .bind (.modifyGet fun _ hg => hg.addSocket b .output (hty ty rfl)) fun _ => .pure _
  | some s =>
      cases ty with
      | none => exact (every_dropSocket s).bind fun _ => .pure _
      | some ty => exact (every_setTy s (hty ty rfl)).bind fun _ => .pure _

theorem every_replaceSockets (b : BlockId) {layout : Layout} (h : layout.Every P) :
    Preserves (Every P K) (replaceSockets b layout) :=
  (preserves_ask _).bind fun _ => (preserves_inputsBySlot _).bind fun _ =>
    (every_reuseInputs b _ h.inputs).bind fun _ => (every_dropInputs _).bind fun _ =>
      (every_replaceOutput b _ h.output).bind fun _ =>
        .bind (every_updateBlock b (fun _ => id) fun _ _ => h.params) fun _ => .pure _

end GraphM

end Plugboard
