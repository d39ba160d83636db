import Plugboard.Proofs.LiveVariables
import Plugboard.Proofs.Renewal

/-!
# Names on one side of a canvas

Blocks that are plugged together with no others have names of their own, the inner names, that are
on no other block of either canvas. Links join types of one side, and inference starts from blocks
of one side. So whatever is brought into agreement leads from inner names to inner names, and the
names stay apart.
-/

namespace Plugboard

variable {inner : String → Prop}

namespace Subst

/-- Inner names are replaced by types over inner names, and all others by types over others. -/
def Parts (inner : String → Prop) (s : Subst) : Prop :=
  ∀ v, (s.image v).Over fun w => inner w ↔ inner v

namespace Parts

variable {s : Subst} {q : Prop} {a b t : Ty}

theorem empty : Subst.empty.Parts inner := fun v => by
  rw [image_empty]
  exact .var Iff.rfl

theorem apply (h : s.Parts inner) (ht : t.Over fun v => inner v ↔ q) :
    (s.apply t).Over fun v => inner v ↔ q := by
  intro w hw
  obtain ⟨v, hv, hw⟩ := mem_vars_apply.1 hw
  exact (h v w hw).trans (ht v hv)

theorem compose {second : Subst} (hs : second.Parts inner) (hf : s.Parts inner) :
    (second.compose s).Parts inner := by
  intro v
  rw [image_compose]
  exact hs.apply (hf v)

theorem of_within (h : s.Within fun v => inner v ↔ q) : s.Parts inner := by
  intro v
  rcases h v with hv | ⟨hv, himage⟩
  · rw [hv]
    exact .var Iff.rfl
  · exact fun w hw => (himage w hw).trans hv.symm

/-- Two types that are on one side. -/
theorem reconcile (h : s.Parts inner) (ha : a.Over fun v => inner v ↔ q)
    (hb : b.Over fun v => inner v ↔ q) : (s.reconcile a b).Parts inner := by
  rw [Subst.reconcile]
  cases hunify : unify (s.apply a) (s.apply b) with
  | error e => exact h
  | ok u =>
      refine (of_within (q := q) ((unify_eliminates hunify).within fun v hv => ?_)).compose h
      exact (List.mem_append.1 hv).elim (h.apply ha v) (h.apply hb v)

end Parts

end Subst

namespace Shape

variable {sh : Shape} {K : Set BlockId} {b c : BlockId}

/-- Nothing in `K` is plugged together with anything else. -/
def Closed (sh : Shape) (K : Set BlockId) : Prop :=
  ∀ {b c}, sh.Connected b c → (b ∈ K ↔ c ∈ K)

/-- What is plugged together with a block that is plugged in nowhere is below it. -/
theorem Wired.below_of_connected (h : sh.Wired) (htop : ∀ d, ¬ sh.Plugged b d)
    (hbc : sh.Connected b c) : sh.Below c b := by
  induction hbc with
  | refl => exact .refl
  | @tail c d _ hstep ih =>
      rcases hstep with hplug | hplug
      · exact .head hplug ih
      · rcases Relation.ReflTransGen.cases_head ih with rfl | ⟨e, he, hbelow⟩
        · exact (htop d hplug).elim
        · exact h.plugged_unique hplug he ▸ hbelow

/-- A socket is on a block that is plugged together with the one at its other end. -/
theorem Linked.connected_of_guest (h : sh.Linked) {s : SocketId} (hb : sh.guest s = some b) :
    ∃ c, sh.Hosts c (.socket s) ∧ sh.Connected b c := by
  obtain ⟨d, role, hpeer, hsite⟩ := guest_eq_some.1 hb
  rcases h.joins hpeer with ⟨c, b', slot, hs, hd⟩ | ⟨c, b', slot, hs, hd⟩ <;>
    obtain rfl := (Prod.mk.inj (Option.some.inj (hsite.symm.trans hd))).1
  · exact ⟨c, ⟨_, hs⟩, .single (.inl ⟨s, d, slot, hs, hpeer, hd⟩)⟩
  · exact ⟨c, ⟨_, hs⟩, .single (.inr ⟨d, s, slot, hd, h.symm hpeer, hs⟩)⟩

theorem closed_connected (b : BlockId) : sh.Closed {c | sh.Connected b c} := fun hcd =>
  ⟨fun hbc => hbc.trans hcd, fun hbd => hbd.trans hcd.symm⟩

end Shape

namespace Graph

variable {g g' : Graph} {K rest : Set BlockId}

/-- The inner names are on the blocks in `K` and on no others, as far as these are not among the
`rest`. -/
def Parted (inner : String → Prop) (K rest : Set BlockId) (g : Graph) : Prop :=
  ∀ ⦃b place t⦄, b ∉ rest → g.shape.Hosts b place → g.keptAt place = some t →
    t.Over fun v => inner v ↔ b ∈ K

namespace Parted

/-- New types, each on its own side, are brought into agreement with those that are kept. -/
theorem agreed (h : g.Parted inner K rest) {placed : List (Place × Ty)}
    (hplaced : ∀ p ∈ placed, ∃ b, b ∉ rest ∧ g.shape.Hosts b p.1 ∧
      p.2.Over fun v => inner v ↔ b ∈ K) :
    (g.agreed placed).Parts inner := by
  refine List.foldlRecOn placed _ .empty fun s hs p hp => ?_
  obtain ⟨b, hrest, hb, hover⟩ := hplaced p hp
  split
  · exact hs
  · rename_i kept hkept
    exact hs.reconcile hover (h hrest hb hkept)

theorem linkAgreed (h : g.Parted inner K ∅) (hsh : g.shape.Linked) (hK : g.shape.Closed K)
    (members : BlockSet) : (g.linkAgreed (g.linksWithin members)).Parts inner := by
  have hlinks : ∀ link ∈ g.linksWithin members, ∃ b c,
      g.shape.Hosts b (.socket link.1) ∧ g.shape.Hosts c (.socket link.2) ∧
      g.shape.Plugged b c := by
    intro link hlink
    obtain ⟨c, slot, -, hsite, hpeer⟩ := mem_linksWithin.1 hlink
    rcases hsh.joins hpeer with ⟨b, d, slot', hs, -⟩ | ⟨d, b, slot', hs, hs'⟩
    · rw [hsite] at hs
      cases hs
    · exact ⟨b, c, ⟨_, hs'⟩, ⟨_, hsite⟩, link.1, link.2, slot, hs', hsh.symm hpeer, hsite⟩
  refine List.foldlRecOn _ _ .empty fun s hs link hlink => ?_
  obtain ⟨b, c, hb, hc, hplug⟩ := hlinks link hlink
  have hside : b ∈ K ↔ c ∈ K := hK (.single (.inr hplug))
  split
  · rename_i t u ht hu
    refine hs.reconcile (h (Set.notMem_empty b) hb ht) ?_
    rw [hside]
    exact h (Set.notMem_empty c) hc hu
  · exact hs

theorem applyTo (h : g.Parted inner K rest) {s : Subst} (hs : s.Parts inner)
    (members : BlockSet) : (g.applyTo s members).Parted inner K rest := by
  intro b place t hb hhosts ht
  rw [shape_applyTo] at hhosts
  rw [keptAt_applyTo hhosts] at ht
  split at ht
  · obtain ⟨t, hkept, rfl⟩ := Option.map_eq_some_iff.1 ht
    exact hs.apply (h hb hhosts hkept)
  · exact h hb hhosts ht

theorem keepAll (h : g.Parted inner K rest) {placed : List (Place × Ty)}
    (hplaced : ∀ p ∈ placed, ∃ b, g.shape.Hosts b p.1 ∧ p.2.Over fun v => inner v ↔ b ∈ K) :
    (g.keepAll placed).Parted inner K rest := by
  intro b place t hb hhosts ht
  rw [shape_keepAll] at hhosts
  rw [keptAt_keepAll fun p hp => (hplaced p hp).imp fun _ => And.left] at ht
  rcases mem_or_of_foldl_kept ht with hmem | ⟨hkept, -⟩
  · obtain ⟨c, hc, hover⟩ := hplaced _ hmem
    exact hhosts.unique hc ▸ hover
  · exact h hb hhosts hkept

end Parted

/-- An inferred type and what it is made of. -/
theorem over_placesOf {scope : String → Prop} {tag : Tag} {t : Ty} (ht : t.Over scope) :
    ∀ p ∈ g.placesOf tag t, p.2.Over scope := by
  intro p hp
  rw [placesOf] at hp
  cases hplaces : g.places tag t with
  | error e =>
      rw [hplaces] at hp
      exact (List.not_mem_nil hp).elim
  | ok placed =>
      rw [hplaces] at hp
      exact over_places ht hplaces p hp

/-- Types are kept that have been inferred for tags of blocks, each over names of its side. -/
theorem Parted.annotated (h : g.Parted inner K rest) {loose : Set BlockId}
    (hsh : g.shape.Regular loose) (hK : g.shape.Closed K) (hrest : g.shape.Closed rest)
    {types : Std.ExtTreeMap Tag Ty}
    (htypes : ∀ {tag : Tag} {t : Ty}, types[tag]? = some t → ∃ b, b ∉ rest ∧
      g.shape.Tagged b tag ∧ t.Over fun v => inner v ↔ b ∈ K) (members : BlockSet) :
    (g.annotated types members).Parted inner K rest := by
  have hown : ∀ p ∈ g.ownPlaces types, ∃ b, b ∉ rest ∧ g.shape.Hosts b p.1 ∧
      p.2.Over fun v => inner v ↔ b ∈ K := by
    intro p hp
    obtain ⟨entry, hentry, hp⟩ := List.mem_flatMap.1 hp
    obtain ⟨b, hb, htag, hover⟩ := htypes (Std.ExtTreeMap.mem_toList_iff_getElem?_eq_some.1 hentry)
    exact ⟨b, hb, (exists_places_eq hsh htag _).2 p hp, over_placesOf hover p hp⟩
  have hplaced : ∀ p ∈ g.placed types members, ∃ b, b ∉ rest ∧ g.shape.Hosts b p.1 ∧
      p.2.Over fun v => inner v ↔ b ∈ K := by
    intro p hp
    rcases List.mem_append.1 hp with hp | hp
    · exact hown p hp
    · obtain ⟨output, input, c, slot, hplace, hput, -, hsite, hpeer⟩ := exists_of_mem_followers hp
      obtain ⟨b, hbrest, ⟨role, hb⟩, hover⟩ := hown _ hput
      have hplug : g.shape.Plugged b c := by
        rcases hsh.joins hpeer with ⟨d, e, slot', hs, -⟩ | ⟨d, e, slot', -, hs⟩
        · rw [hsite] at hs
          cases hs
        · rw [hb] at hs
          cases hs
          exact ⟨output, input, slot, hb, hsh.symm hpeer, hsite⟩
      have hconn : g.shape.Connected b c := .single (.inr hplug)
      exact ⟨c, mt (hrest hconn).2 hbrest, hplace ▸ ⟨_, hsite⟩, by rwa [← hK hconn]⟩
  have hs := h.agreed hplaced
  refine (h.applyTo hs members).keepAll fun q hq => ?_
  obtain ⟨p, hp, rfl⟩ := List.mem_map.1 hq
  obtain ⟨b, -, hb, hover⟩ := hplaced p hp
  exact ⟨b, (shape_applyTo (g := g) _ members).symm ▸ hb, hs.apply hover⟩

theorem Parted.congr (h : g.Parted inner K rest) (hshape : g'.shape = g.shape)
    (hkept : ∀ place, g'.keptAt place = g.keptAt place) : g'.Parted inner K rest :=
  fun _ place _ hb hhosts ht => h hb (hshape ▸ hhosts) (hkept place ▸ ht)

end Graph

namespace VarPool

variable {pool pool' : VarPool} {q : Prop} {v : String}

/-- The names in use on the other side than the one that `q` tells. -/
def Beyond (inner : String → Prop) (q : Prop) (pool : VarPool) (v : String) : Prop :=
  pool.Uses v ∧ ¬ (inner v ↔ q)

/-- The inner names after names have been drawn for the side that `q` tells. -/
def Drawn (inner : String → Prop) (q : Prop) (pool pool' : VarPool) (v : String) : Prop :=
  inner v ∨ q ∧ pool'.Uses v ∧ ¬ pool.Uses v

theorem drawn_of_used (hv : pool.Uses v) : Drawn inner q pool pool' v ↔ inner v := by
  simp [Drawn, hv]

/-- Whatever is not beyond is on the side that names have been drawn for. -/
theorem drawn_of_own (hinner : ∀ v, inner v → pool.Uses v)
    (hv : pool'.Own (pool.Beyond inner q) v) : Drawn inner q pool pool' v ↔ q := by
  by_cases hused : pool.Uses v
  · rw [drawn_of_used hused]
    by_contra hside
    exact hv.2 ⟨hused, hside⟩
  · have hnew : ¬ inner v := fun hin => hused (hinner v hin)
    exact ⟨fun hdrawn => (hdrawn.resolve_left hnew).1, fun hq => .inr ⟨hq, hv.1, hused⟩⟩

end VarPool

namespace Workspace

open VarPool

variable {K rest rest' : Set BlockId} {ws : Workspace} {sh flyout : Shape}

/-- The inner names are in use, and they are on the blocks in `K` and on no others of either
canvas, as far as these are not among the `rest`. -/
structure Parted (inner : String → Prop) (K rest : Set BlockId) (ws : Workspace) : Prop where
  accounted : ws.Accounted ws.pool
  used : ∀ v, inner v → ws.pool.Uses v
  main : ws.main.Parted inner K rest
  flyout : ws.flyout.Every (·.Over fun v => ¬ inner v) fun _ => True

namespace Parted

theorem mono (h : ws.Parted inner K rest) (hsub : rest ⊆ rest') : ws.Parted inner K rest' :=
  ⟨h.accounted, h.used, fun _ _ _ hb => h.main fun hmem => hb (hsub hmem), h.flyout⟩

/-- Names are drawn for one side. -/
theorem draw (h : ws.Parted inner K rest) {pool : VarPool} (hext : ws.pool.Extended pool)
    (q : Prop) : Parted (Drawn inner q ws.pool pool) K rest { ws with pool } where
  accounted := ⟨.refl _, (h.accounted.extend hext).distinct, (h.accounted.extend hext).every⟩
  used v hv := by
    rcases hv with hv | ⟨-, hv, -⟩
    · exact hext.keeps h.accounted.distinct (h.used v hv)
    · exact hv
  main b place t hb hhosts ht v hv := by
    exact (drawn_of_used (h.accounted.main.keptAt ht v hv)).trans (h.main hb hhosts ht v hv)
  flyout := by
    have hused := h.accounted.every .flyout
    refine ⟨fun {s socket} hs => ?_, fun {b block name t} hb ht v hv => ?_, fun _ => trivial⟩
    · obtain ⟨t, ht, hover⟩ := h.flyout.socket hs
      obtain ⟨t', ht', hused⟩ := hused.socket hs
      cases ht.symm.trans ht'
      exact ⟨t, ht, fun v hv => mt (drawn_of_used (hused v hv)).1 (hover v hv)⟩
    · exact mt (drawn_of_used (hused.param hb ht v hv)).1 (h.flyout.param hb ht v hv)

theorem setMain (h : ws.Parted inner K rest) {g : Graph}
    (hused : g.Every (·.Over ws.pool.Uses) BlockKind.Ground) (hg : g.Parted inner K rest') :
    (ws.setGraph .main g).Parted inner K rest' :=
  ⟨h.accounted.setMain hused, h.used, hg, h.flyout⟩

theorem requestRender (h : ws.Parted inner K rest) (blocks : BlockSet) :
    (ws.requestRender .main blocks).Parted inner K rest :=
  ⟨h.accounted.requestRender .main blocks, h.used, h.main, h.flyout⟩

end Parted

/-- The canvases have these shapes, and there are inner names on the blocks in `K`, but for the
`rest`, that are nowhere else. -/
structure Divided (sh flyout : Shape) (K rest : Set BlockId) (ws : Workspace) : Prop where
  main : ws.main.shape = sh
  flyout : ws.flyout.shape = flyout
  parted : ∃ inner, ws.Parted inner K rest

theorem Divided.ofShape (h : ws.Divided sh flyout K rest) : ws.OfShape sh flyout := by
  obtain ⟨inner, hparted⟩ := h.parted
  have htyped : ∀ canvas, (ws.graph canvas).Typed := fun canvas =>
    (hparted.accounted.every canvas).imp (fun _ _ => trivial) fun _ _ => trivial
  exact ⟨⟨h.main, h.flyout⟩, htyped .main, htyped .flyout⟩

theorem Divided.mono (h : ws.Divided sh flyout K rest) (hsub : rest ⊆ rest') :
    ws.Divided sh flyout K rest' :=
  let ⟨inner, hparted⟩ := h.parted
  ⟨h.main, h.flyout, inner, hparted.mono hsub⟩

end Workspace

namespace WorkspaceM

open Workspace VarPool

variable {K rest : Set BlockId} {ws : Workspace} {sh flyout : Shape}

/-- A change of warnings changes no types. -/
theorem divided_modifyBlock (h : ws.Divided sh flyout K rest) (b : BlockId)
    (warning : Option String) :
    Divided sh flyout K rest
      { ws with main := ws.main.modifyBlock b fun block => { block with warning } } := by
  obtain ⟨hmain, hflyout, inner, hparted⟩ := h
  have hshape : (ws.main.modifyBlock b fun block => { block with warning }).shape = ws.main.shape :=
    Graph.shape_modifyBlock fun _ => ⟨rfl, rfl, rfl⟩
  have hused := hparted.accounted.main.modifyBlock b (f := fun block => { block with warning })
    (fun _ => hparted.accounted.ground) fun _ hb _ _ ht => hparted.accounted.main.param hb ht
  have hkept : ∀ place, (ws.main.modifyBlock b fun block => { block with warning }).keptAt place =
      ws.main.keptAt place := Graph.keptAt_modifyBlock (fun _ => by rfl) b
  exact ⟨hshape.trans hmain, hflyout, inner,
    hparted.setMain hused (hparted.main.congr hshape hkept)⟩

/-- The types of the tags that have been found are kept on their side. -/
theorem steady_divided (hsh : sh.Regular ∅) (hK : sh.Closed K)
    (hfun : ∀ b ∈ K, ∀ p, sh.ports b = some p → p.kind.function? = none)
    (hground : sh.Ground) : Steady sh flyout (fun _ => True) (Divided sh flyout K ∅) where
  ofShape h := h.ofShape
  joins _ _ _ _ := trivial
  warn root e := by
    intro ws h
    obtain ⟨hmain, hflyout, inner, hparted⟩ := divided_modifyBlock h (ws.blamed root e)
      (some (ws.settings.warning ++ ": " ++ e.message))
    exact ⟨hmain, hflyout, inner, hparted.requestRender _⟩
  clear {b} hb := by
    intro ws h
    obtain ⟨rfl, -, -⟩ := id h
    obtain ⟨p, hp⟩ := hb
    obtain ⟨block, hblock, -⟩ := Graph.shape_ports_eq_some.1 hp
    rw [ends_onMain, GraphM.setWarning, GraphM.updateBlock, ends_bind, GraphM.ends_ask,
      Graph.block_eq_ok.2 hblock]
    exact divided_modifyBlock h b none
  keep {ws origin types pool} h hfinding := by
    obtain ⟨rfl, rfl, inner, hparted⟩ := h
    -- all that the inference has started from is on one side
    obtain ⟨q, hq⟩ : ∃ q : Prop, ∀ b, origin b → (b ∈ K ↔ q) := by
      rcases hfinding.starts with ⟨root, rfl⟩ | ⟨group, -, hfunctions⟩
      · exact ⟨root ∈ K, fun b hb => hb ▸ Iff.rfl⟩
      · refine ⟨False, fun b hb => iff_false_intro fun hmem => ?_⟩
        obtain ⟨-, p, hp, hsome⟩ := hfunctions b hb
        rw [hfun b hmem p hp] at hsome
        cases hsome
    have hkeeps : ws.pool.Keeps (ws.pool.Beyond inner q) :=
      ⟨hparted.accounted.distinct, fun _ => And.left⟩
    obtain ⟨hext, htypes⟩ := hfinding.drawn hground hkeeps fun {s b t} hb hguest ht v hv => by
      obtain ⟨c, hc, hbc⟩ := hsh.toLinked.connected_of_guest hguest
      have hside := hparted.main (Set.notMem_empty c) hc ht v hv
      have hkept : ws.main.keptAt (.socket s) = some t := ht
      refine ⟨hparted.accounted.main.keptAt hkept v hv, fun hbeyond => ?_⟩
      exact hbeyond.2 (hside.trans ((hK hbc).symm.trans (hq b hb)))
    have hdrawn := hparted.draw hext q
    refine ⟨⟨rfl, rfl, _, hdrawn⟩, ?_⟩
    have hover : ∀ {tag : Tag} {t : Ty}, types[tag]? = some t → ∃ b, b ∉ (∅ : Set BlockId) ∧
        ws.main.shape.Tagged b tag ∧ t.Over fun v => Drawn inner q ws.pool pool v ↔ b ∈ K := by
      intro tag t ht
      obtain ⟨root, hroot, b, hconn, hb⟩ := hfinding.tagged ht
      refine ⟨b, Set.notMem_empty b, hb, (htypes ht).mono fun v hv => ?_⟩
      exact (drawn_of_own hparted.used hv).trans ((hq root hroot).symm.trans (hK hconn))
    have hused : Ends (annotate types) { ws with pool } (fun _ => Accounted pool)
        (Accounted pool) := accounted_annotate hdrawn.accounted fun tag t ht =>
      (htypes ht).mono fun _ => And.left
    have hran := @ends_annotate { ws with pool } ∅ hsh types fun ht =>
      (hover ht).imp fun _ h => h.2.1
    refine (hused.and hran).imp (fun _ ws' h => ?_) fun _ => And.right
    obtain ⟨haccounted, members, rfl, -⟩ := h
    have hmain := hdrawn.main.annotated hsh hK (fun _ => Iff.rfl) hover members
    exact ⟨Graph.shape_annotated _ _, rfl, _, ⟨.refl _, haccounted.distinct, haccounted.every⟩,
      hdrawn.used, hmain, hdrawn.flyout⟩

end WorkspaceM

end Plugboard
