import Plugboard.Proofs.RebuiltSockets
import Plugboard.Proofs.UnboundedWalks

/-!
# The search for cycles is exact

Sockets may be linked without being asked whether the link closes a cycle, and over links that they
have already: then a block can be plugged into several others, and links need not go both ways. In
such a graph too every socket that something refers to is there, so the search below a block has
only two outcomes. It fails at a block that leads back to itself, or there is no such block, and
then making up the term of the block comes to an end as well.
-/

namespace Plugboard

open Relation

namespace Shape

variable {sh sh' : Shape}

/-- What is referred to is there: the inputs that a block lists, the peer of a socket and the block
that a socket is on. -/
structure Whole (sh : Shape) : Prop where
  bounded : sh.Bounded
  input : ∀ {b p s}, sh.ports b = some p → s ∈ p.inputs → ∃ r, sh.site s = some r
  peer : ∀ {s d}, sh.peer s = some d → ∃ r, sh.site d = some r
  owner : ∀ {s b role}, sh.site s = some (b, role) → ∃ p, sh.ports b = some p

theorem Whole.join (h : sh.Whole) {a b : SocketId} {r r' : BlockId × Role}
    (ha : sh.site a = some r) (hb : sh.site b = some r') : (sh.join a b).Whole where
  bounded := h.bounded
  input := h.input
  peer := fun {s d} hd => by
    simp only [Shape.join] at hd
    split at hd
    · exact ⟨r, Option.some.inj hd ▸ ha⟩
    · split at hd
      · exact ⟨r', Option.some.inj hd ▸ hb⟩
      · exact h.peer hd
  owner := h.owner

theorem Added.whole {b : BlockId} {p : Ports} {slots : List String} (h : Added b p slots sh sh')
    (hsh : sh.Whole) : sh'.Whole where
  bounded := fun s r hs => by
    by_cases hnew : s ∈ p.sockets
    · exact (h.fresh s hnew).2
    · exact (hsh.bounded s r ((h.old s hnew).symm.trans hs)).trans_le h.le
  input := fun {c q s} hq hs => by
    rw [h.ports] at hq
    by_cases hc : c = b
    · obtain rfl : p = q := Option.some.inj ((if_pos hc).symm.trans hq)
      obtain ⟨role, hsite⟩ := h.site_of_mem (List.mem_append_right _ hs)
      exact ⟨_, hsite⟩
    · obtain ⟨r, hr⟩ := hsh.input ((if_neg hc).symm.trans hq) hs
      exact ⟨r, h.site_of_some hsh.bounded hr⟩
  peer := fun {s d} hd => by
    obtain ⟨r, hr⟩ := hsh.peer (h.peer ▸ hd)
    exact ⟨r, h.site_of_some hsh.bounded hr⟩
  owner := fun {s c role} hs => by
    rw [h.ports]
    by_cases hnew : s ∈ p.sockets
    · obtain ⟨role', hsite⟩ := h.site_of_mem hnew
      cases hs.symm.trans hsite
      exact ⟨p, if_pos rfl⟩
    · exact exists_ports_setPorts p (hsh.owner ((h.old s hnew).symm.trans hs))

end Shape

namespace Graph

variable {g : Graph} {b root : BlockId}

/-- The graphs that come about when blocks of any layout are added and any sockets are linked,
whether they are free or not. A link that is refused leaves the graph as it is. -/
inductive Assembled : Graph → Prop
  | empty : Assembled .empty
  | addBlock {g : Graph} (h : Assembled g) (kind : BlockKind) (layout : Layout) :
      Assembled (g.addBlock kind layout).2
  | link {g : Graph} (h : Assembled g) (a b : SocketId) :
      Assembled ((GraphM.link a b).run g).2

theorem whole_link (h : g.shape.Whole) (a b : SocketId) :
    ((GraphM.link a b).run g).2.shape.Whole := by
  have hends : Ends (GraphM.link a b) g (fun _ => (·.shape.Whole)) (·.shape.Whole) := by
    cases hb : g.sockets[b]? with
    | none => simp [GraphM.link, socket, hb, h]
    | some other =>
        cases ha : g.sockets[a]? with
        | none => simp [GraphM.link, GraphM.updateSocket, socket, hb, ha, h]
        | some first =>
            have ha' := shape_site_eq_some.2 ⟨first, ha, rfl⟩
            have hb' := shape_site_eq_some.2 ⟨other, hb, rfl⟩
            exact (GraphM.ends_link ha' hb').imp (fun _ g' hg' => hg' ▸ h.join ha' hb')
              fun _ => False.elim
  exact hends.state

theorem Assembled.whole (h : g.Assembled) : g.shape.Whole := by
  induction h with
  | empty =>
      have hempty := Shape.regular_empty.toWired.anchored
      exact ⟨hempty.bounded, nofun, nofun, hempty.owner⟩
  | addBlock _ kind layout ih =>
      obtain ⟨p, -, -, hadded⟩ := added_addBlock ih.bounded kind layout
      exact hadded.whole ih
  | link _ a b ih => exact whole_link ih a b

theorem exists_pluggedBlock_eq (h : g.shape.Whole) {s : SocketId} {r : BlockId × Role}
    (hs : g.shape.site s = some r) :
    ∃ c?, g.pluggedBlock s = .ok c? ∧ ∀ c, c? = some c → c ∈ g.world := by
  obtain ⟨socket, hsocket, -⟩ := shape_site_eq_some.1 hs
  rw [pluggedBlock, socket_eq_ok.2 hsocket]
  cases hpeer : socket.peer with
  | none => exact ⟨none, by simp [bind, Except.bind, hpeer, pure, Except.pure], by simp⟩
  | some d =>
      obtain ⟨r', hr'⟩ := h.peer (shape_peer_eq_some.2 ⟨socket, hsocket, hpeer⟩)
      obtain ⟨other, hother, rfl⟩ := shape_site_eq_some.1 hr'
      refine ⟨some other.block, ?_, fun c hc => ?_⟩
      · simp [bind, Except.bind, hpeer, socket_eq_ok.2 hother, pure, Except.pure]
      · exact Option.some.inj hc ▸ mem_world.2 (h.owner hr')

/-- Wherever one is, one can look at the children, and they are all there. -/
theorem confines_of_whole (h : g.shape.Whole) : Confines g.world g.children := by
  intro b hb
  obtain ⟨p, hp⟩ := mem_world.1 hb
  obtain ⟨block, hblock, rfl⟩ := shape_ports_eq_some.1 hp
  have hplugged : ∀ s ∈ block.inputs, ∃ c?, g.pluggedBlock s = .ok c? ∧
      ∀ c, c? = some c → c ∈ g.world := fun s hs =>
    let ⟨_, hr⟩ := h.input hp hs
    exists_pluggedBlock_eq h hr
  obtain ⟨found, hfound⟩ := exists_mapM_eq fun s hs =>
    let ⟨c?, hc?, _⟩ := hplugged s hs
    ⟨c?, hc?⟩
  refine ⟨found.filterMap id, ?_, fun c hc => ?_⟩
  · rw [children, block_eq_ok.2 hblock]
    simp [bind, Except.bind, hfound, pure, Except.pure]
  · obtain ⟨c?, hmem, rfl⟩ := List.mem_filterMap.1 hc
    obtain ⟨s, hs, hanswer⟩ := exists_of_mem_mapM hfound hmem
    obtain ⟨c?, hc?, hworld⟩ := hplugged s hs
    cases hanswer.symm.trans hc?
    exact hworld c rfl

/-- The block is below `root`, or is `root`, and is below itself. -/
structure LoopsAt (g : Graph) (root b : BlockId) : Prop where
  below : ReflTransGen (Leads g.children) root b
  back : TransGen (Leads g.children) b b

theorem LoopsAt.of_child {c : BlockId} (hc : Leads g.children root c) (h : g.LoopsAt c b) :
    g.LoopsAt root b :=
  ⟨h.below.head hc, h.back⟩

theorem exists_of_foldlM_error {ε α β : Type} {f : β → α → Except ε β} {xs : List α} {b : β}
    {e : ε} (h : xs.foldlM f b = .error e) : ∃ a ∈ xs, ∃ b', f b' a = .error e := by
  induction xs generalizing b with
  | nil => cases h
  | cons a as ih =>
      rw [List.foldlM_cons] at h
      cases hfirst : f b a with
      | error e' =>
          rw [hfirst] at h
          cases h
          exact ⟨a, List.mem_cons_self, b, hfirst⟩
      | ok b₁ =>
          rw [hfirst] at h
          obtain ⟨a', ha', hfails⟩ := ih h
          exact ⟨a', List.mem_cons_of_mem a ha', hfails⟩

/-- Where all blocks of the path lead to `b`, a descent fails at a block that leads back to itself
and for no other reason. -/
theorem loopsAt_of_descend (h : Confines g.world g.children) {fuel : Nat} {path done : BlockSet}
    {e : Fault} (hb : b ∈ g.world) (hfuel : (unseen g.world path).card < fuel)
    (hpath : ∀ x ∈ path, TransGen (Leads g.children) x b)
    (herror : g.descend fuel path done b = .error e) : ∃ c, e = .cycle c ∧ g.LoopsAt b c := by
  induction fuel generalizing path done b with
  | zero => exact (Nat.not_lt_zero _ hfuel).elim
  | succ fuel ih =>
      obtain ⟨children, hchildren, hworld⟩ := h b hb
      rw [descend] at herror
      split at herror
      · cases herror
      · split at herror
        · rename_i hmem
          cases herror
          exact ⟨b, rfl, .refl, hpath b (Std.ExtTreeSet.mem_iff_contains.2 hmem)⟩
        · rename_i hmem
          have hnew : b ∉ path := fun hb => hmem (Std.ExtTreeSet.mem_iff_contains.1 hb)
          rw [hchildren] at herror
          cases hrun : children.foldlM (g.descend fuel (path.insert b)) done with
          | ok done' => simp [bind, Except.bind, hrun, pure, Except.pure] at herror
          | error e' =>
              obtain rfl : e' = e := by simpa [bind, Except.bind, hrun] using herror
              obtain ⟨c, hc, done', hfails⟩ := exists_of_foldlM_error hrun
              have hleads : Leads g.children b c := ⟨_, hchildren, hc⟩
              -- the path to `c` is that to `b` and `b` itself
              have hpath' : ∀ x ∈ path.insert b, TransGen (Leads g.children) x c := fun x hx => by
                rcases mem_insert.1 hx with rfl | hx
                · exact .single hleads
                · exact (hpath x hx).tail hleads
              have hless := unseen_insert_lt hb hnew
              obtain ⟨d, hd, hloops⟩ := ih (hworld c hc) (by omega) hpath' hfails
              exact ⟨d, hd, hloops.of_child hleads⟩

theorem loopsAt_of_checkAcyclic (h : Confines g.world g.children) (hroot : root ∈ g.world)
    {e : Fault} (herror : g.checkAcyclic root = .error e) :
    ∃ b, e = .cycle b ∧ g.LoopsAt root b := by
  cases hrun : g.descend g.depth ∅ ∅ root with
  | ok done => simp [checkAcyclic, bind, Except.bind, hrun, pure, Except.pure] at herror
  | error e' =>
      obtain rfl : e' = e := by simpa [checkAcyclic, bind, Except.bind, hrun] using herror
      exact loopsAt_of_descend h hroot g.card_unseen_empty_lt
        (fun x hx => (Std.ExtTreeSet.not_mem_empty hx).elim) hrun

theorem Finite.of_below (h : g.Finite root) (hbelow : ReflTransGen (Leads g.children) root b) :
    g.Finite b := by
  induction hbelow with
  | refl => exact h
  | tail _ hstep ih =>
      obtain ⟨children, hchildren, hc⟩ := hstep
      obtain ⟨hchildren', hall⟩ := ih
      cases hchildren.symm.trans hchildren'
      exact hall _ hc

theorem not_loopsAt_of_checkAcyclic (h : g.checkAcyclic root = .ok ()) : ¬ g.LoopsAt root b :=
  fun hloops => ((finite_of_checkAcyclic h).of_below hloops.below).not_cycle hloops.back

theorem LoopsAt.mem_world (h : g.LoopsAt root b) : root ∈ g.world := by
  rcases h.below.cases_head with rfl | ⟨c, ⟨following, hfollowing, -⟩, -⟩
  · obtain ⟨c, ⟨following, hfollowing, -⟩, -⟩ := TransGen.head'_iff.1 h.back
    exact mem_world_of_children hfollowing
  · exact mem_world_of_children hfollowing

theorem checkAcyclic_of_not_mem (h : root ∉ g.world) :
    g.checkAcyclic root = .error (.unknownBlock root) := by
  have hblock : g.block root = .error (.unknownBlock root) := by
    cases hb : g.blocks[root]? with
    | none => rw [block, hb]
    | some block => exact (h (mem_world_of_block (block_eq_ok.2 hb))).elim
  simp [checkAcyclic, depth, descend, children, hblock, bind, Except.bind]

/-- The search has one outcome where a block is below itself, and another one where none is. -/
theorem checkAcyclic_cases (h : g.Assembled) (root : BlockId) :
    (∃ b, g.checkAcyclic root = .error (.cycle b) ∧ g.LoopsAt root b) ∨
      (∀ b, ¬ g.LoopsAt root b) ∧
        g.checkAcyclic root = if g.contains root then .ok () else .error (.unknownBlock root) := by
  by_cases hroot : g.contains root
  · cases hrun : g.checkAcyclic root with
    | ok done => exact .inr ⟨fun _ => not_loopsAt_of_checkAcyclic hrun, (if_pos hroot).symm⟩
    | error e =>
        obtain ⟨b, rfl, hloops⟩ := loopsAt_of_checkAcyclic (confines_of_whole h.whole)
          (mem_world.2 (contains_iff.1 hroot)) hrun
        exact .inl ⟨b, rfl, hloops⟩
  · have hmem : root ∉ g.world := fun hmem => hroot (contains_iff.2 (mem_world.1 hmem))
    refine .inr ⟨fun b hloops => hmem hloops.mem_world, ?_⟩
    rw [if_neg hroot, checkAcyclic_of_not_mem hmem]

/-- The recursion over what is plugged in comes to an end where no cycle is found. -/
theorem lowerIn_of_checkAcyclic (h : g.checkAcyclic root = .ok ()) (n : Nat) :
    lowerIn g (n + g.depth) root = .of (g.lower root) := by
  rw [lowerIn_eq (finite_of_checkAcyclic h).within_depth (Nat.le_add_left _ n), lower, h]
  rfl

/-- In a graph that was put together with any links, the search for a cycle below a block fails at
a block that is below itself if there is one, and succeeds if there is none. Then the recursion over
what is plugged in ends as well, with a term or a failure, and there are no more calls inside each
other than blocks, but for the first one. -/
theorem checkAcyclic_exact (h : g.Assembled) (root : BlockId) :
    ((∃ b, g.checkAcyclic root = .error (.cycle b)) ↔ ∃ b, g.LoopsAt root b) ∧
      (∀ b, g.checkAcyclic root = .error (.cycle b) → g.LoopsAt root b) ∧
      (¬ g.contains root → g.checkAcyclic root = .error (.unknownBlock root)) ∧
      (g.contains root → (∀ b, ¬ g.LoopsAt root b) → g.checkAcyclic root = .ok () ∧
        ∀ n, lowerIn g (n + g.depth) root = .of (g.lower root)) := by
  rcases checkAcyclic_cases h root with ⟨b, hcycle, hloops⟩ | ⟨hnone, hrun⟩
  · refine ⟨iff_of_true ⟨b, hcycle⟩ ⟨b, hloops⟩, fun c hc => ?_, fun hroot => ?_,
      fun _ hnone => (hnone b hloops).elim⟩
    · cases hcycle.symm.trans hc
      exact hloops
    · exact (hroot (contains_iff.2 (mem_world.1 hloops.mem_world))).elim
  · have hne : ∀ b, g.checkAcyclic root ≠ .error (.cycle b) := fun b hb => by
      rw [hrun] at hb
      split at hb <;> cases hb
    refine ⟨iff_of_false (not_exists.2 hne) (not_exists.2 hnone), fun b hb => (hne b hb).elim,
      fun hroot => hrun.trans (if_neg hroot), fun hroot _ => ?_⟩
    have hok := hrun.trans (if_pos hroot)
    exact ⟨hok, lowerIn_of_checkAcyclic hok⟩

/-- A function that is given itself: one block is plugged into two inputs of another one, which
knows both links while the plugged block knows the second one only. Then the block is plugged into
itself over the first link. -/
theorem checkAcyclic_exact_shared :
    let t : Ty := .base "Int"
    let g := (Graph.empty.addBlock .apply ⟨some t, [(Slot.func, t), (Slot.argument, t)], ∅⟩).2
    let g := (g.addBlock (.literal "1" t) ⟨some t, [], ∅⟩).2
    let g := ((GraphM.link ⟨3⟩ ⟨1⟩).run g).2
    let g := ((GraphM.link ⟨3⟩ ⟨2⟩).run g).2
    let looped := ((GraphM.link ⟨0⟩ ⟨1⟩).run g).2
    (∀ b, ¬ g.LoopsAt ⟨0⟩ b) ∧ g.checkAcyclic ⟨0⟩ = .ok () ∧
      (∀ n, lowerIn g (n + 3) ⟨0⟩ = .of (g.lower ⟨0⟩)) ∧ ∃ b, looped.LoopsAt ⟨0⟩ b := by
  intro t g₁ g₂ g₃ g looped
  have hg : g.Assembled := .link (.link (.addBlock (.addBlock .empty _ _) _ _) _ _) _ _
  have hok : g.checkAcyclic ⟨0⟩ = .ok () := by decide +kernel
  have hcycle : ∃ b, looped.checkAcyclic ⟨0⟩ = .error (.cycle b) := ⟨⟨0⟩, by decide +kernel⟩
  have hexact := checkAcyclic_exact hg ⟨0⟩
  have hnone : ∀ b, ¬ g.LoopsAt ⟨0⟩ b := not_exists.1 fun h => by
    obtain ⟨b, hb⟩ := hexact.1.2 h
    cases hok.symm.trans hb
  have hends := (hexact.2.2.2 (by decide +kernel) hnone).2
  exact ⟨hnone, hok, hends, (checkAcyclic_exact (hg.link _ _) ⟨0⟩).1.1 hcycle⟩

end Graph

end Plugboard
