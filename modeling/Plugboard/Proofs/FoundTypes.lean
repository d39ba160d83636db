import Mathlib.Data.Set.BooleanAlgebra
import Mathlib.Order.CompletePartialOrder
import Plugboard.Proofs.TreeTypes

/-!
# The types that inference finds

A run that succeeds on a tree ends with types that fit together on all of its blocks. A tree may
be inferred as a function of its holes, or with a type that is expected of it and with something
known before; functions that call each other are inferred one after the other, and what one of
them adds to what is known leaves the types of those before it fitting.
-/

namespace Plugboard

open InferM Subst

namespace InferM

/-- The resolved types are the notes under the substitution, the newest first. -/
theorem getElem?_resolve (s : Subst) (notes : List (Tag × Ty)) (tag : Tag) :
    (resolve s notes)[tag]? = (s.applyNotes notes).lookup tag := by
  have hlookup : ∀ l : List (Tag × Ty),
      (l.findSome? fun n => if compare n.1 tag = .eq then some n.2 else none) = l.lookup tag := by
    intro l
    induction l with
    | nil => rfl
    | cons n l ih =>
        rw [List.findSome?_cons, List.lookup_cons, ih]
        by_cases htag : tag = n.1
        · simp [htag]
        · rw [beq_eq_false_iff_ne.2 htag, if_neg]
          rw [Std.LawfulEqCmp.compare_eq_iff_eq]
          exact Ne.symm htag
  rw [resolve, Std.ExtTreeMap.ofList_eq_insertMany_empty, Std.ExtTreeMap.getElem?_insertMany_list,
    Std.ExtTreeMap.getElem?_empty, Option.or_none, List.findSomeRev?_eq_findSome?_reverse,
    ← List.map_reverse, List.reverse_reverse]
  exact hlookup _

theorem notes_bindHoles (notes : List (Tag × Ty)) (holes : List SocketId) :
    Preserves (fun st : InferState => st.notes = notes) (bindHoles holes) :=
  .mapM fun _ _ => .bind (.modifyGet fun _ => id) fun _ => .pure _

end InferM

namespace Env

/-- An environment for terms that bind the names `bound`: it has none of them, its schemes are
closed, and what terms are put together with is built in. -/
structure Serves (env : Env) (bound : String → Prop) : Prop where
  closed : env.Closed
  apart : ∀ {name}, bound name → env.lookup name = none
  prelude : Prelude.Within env bound

variable {env known : Env} {bound : String → Prop}

theorem Serves.tracks (h : env.Serves bound) : env.Tracks bound env where
  lookup := id
  plain hlookup := .inl (h.closed _ _ hlookup)
  covers hlookup := .inl ⟨_, hlookup⟩
  apart := h.apart

theorem Tracks.insertMany (h : known.Tracks bound env) {bindings : List (String × Scheme)}
    (hbound : ∀ binding ∈ bindings, bound binding.1) :
    known.Tracks bound (env.insertMany bindings) := by
  induction bindings generalizing env with
  | nil => exact h
  | cons binding bindings ih =>
      rw [List.forall_mem_cons] at hbound
      exact ih (h.insert hbound.1 binding.2) hbound.2

/-- Names that are bound plainly, and to nothing that is bound within terms, are all known. -/
theorem Over.tracks {scope : String → Prop} (h : env.Over scope)
    (hapart : ∀ {name}, bound name → env.lookup name = none) : env.Tracks bound env where
  lookup := id
  plain hlookup := (h _ _ hlookup).imp_right And.left
  covers hlookup := .inl ⟨_, hlookup⟩
  apart := hapart

theorem lookup_insertMany_of_not_mem {bindings : List (String × Scheme)} {name : String}
    (h : name ∉ bindings.map (·.1)) : (env.insertMany bindings).lookup name = env.lookup name := by
  induction bindings generalizing env with
  | nil => rfl
  | cons binding bindings ih =>
      rw [List.map_cons, List.mem_cons, not_or] at h
      refine (ih h.2).trans ?_
      rw [lookup_insert, if_neg (Ne.symm h.1)]

end Env

namespace Prelude.Within

variable {env : Env} {bound : String → Prop}

theorem isSome_lookup {name : String}
    (h : name ∈ [bindName, guardName, yieldName, consName, nilName]) :
    (Prelude.env.lookup name).isSome := by
  simp only [List.mem_cons, List.not_mem_nil, or_false] at h
  rcases h with rfl | rfl | rfl | rfl | rfl <;> cbv

theorem apply (h : Within env bound) (s : Subst) : Within (env.apply s) bound := by
  intro name hname
  obtain ⟨hfree, hlookup⟩ := h name hname
  refine ⟨hfree, ?_⟩
  rw [Env.lookup_apply, hlookup]
  cases hscheme : Prelude.env.lookup name with
  | none => rfl
  | some scheme => exact congrArg some (s.applyScheme_of_closed (closed_env name scheme hscheme))

/-- Names that are not built in are none that terms are put together with. -/
theorem insertMany (h : Within env bound) {bindings : List (String × Scheme)}
    (hnames : ∀ binding ∈ bindings, Prelude.env.lookup binding.1 = none) :
    Within (env.insertMany bindings) bound := by
  intro name hname
  obtain ⟨hfree, hlookup⟩ := h name hname
  refine ⟨hfree, (Env.lookup_insertMany_of_not_mem fun hmem => ?_).trans hlookup⟩
  obtain ⟨binding, hbinding, rfl⟩ := List.mem_map.1 hmem
  have hsome := isSome_lookup hname
  rw [hnames binding hbinding] at hsome
  cases hsome

end Prelude.Within

namespace Lowered

variable {env known : Env} {bound : String → Prop} {l : Lowered} {st st' : InferState}

/-- An inference with an expected type is one of the term, with its holes bound plainly. What it
ends with goes on from what was known, and makes the type that is found the expected one. -/
theorem exists_run_of_inferAs {before r : Subst} {block : BlockId} {expected : Ty}
    (hpool : st.pool.Distinct) (henv : env.Over st.pool.Uses) (hlits : l.term.LitsGround)
    (hbefore : before.Within st.pool.Uses) (hidem : before.Idempotent)
    (hrun : (l.inferAs env block expected before).run st = (.ok r, st')) :
    ∃ bindings s t st₁, (bindHoles l.holes).run st = (.ok bindings, st₁) ∧
      bindings.map (·.1) = l.holes.map holeName ∧
      (∀ binding ∈ bindings, ∃ t : Ty, binding.2 = .mono t) ∧ st₁.notes = st.notes ∧
      st₁.pool.Distinct ∧ ((env.insertMany bindings).apply before).Guarded st₁.pool ∧
      (l.term.infer ((env.insertMany bindings).apply before)).run st₁ = (.ok (s, t), st') ∧
      r.Idempotent ∧ ∀ σ : Subst, σ.Absorbs r →
        σ.Absorbs before ∧ σ.Absorbs s ∧ σ.apply t = σ.apply expected := by
  have hkeeps := hpool.keeps
  rw [← VarPool.own_false] at henv hbefore
  rw [inferAs] at hrun
  obtain ⟨bindings, st₁, hholesRun, hrun⟩ := run_bind_eq_ok.1 hrun
  obtain ⟨⟨s, t⟩, st₂, hterm, hrun⟩ := run_bind_eq_ok.1 hrun
  obtain ⟨u, st₃, hsolve, hrun⟩ := run_bind_eq_ok.1 hrun
  obtain ⟨hunify, rfl⟩ := run_unifyAt_eq_ok.1 hsolve
  obtain ⟨heq, rfl⟩ := Prod.mk.inj hrun
  obtain rfl := Except.ok.inj heq
  obtain ⟨hnames, hbindings, hcont₁⟩ := (ends_bindHoles hkeeps l.holes).of_run_eq hholesRun
  have hnotes₁ : st₁.notes = st.notes :=
    (notes_bindHoles st.notes l.holes st rfl).of_run_eq hholesRun
  have hown₁ : ∀ v, st.pool.Own _ v → st₁.pool.Own _ v := fun _ => hkeeps.own hcont₁.pool
  have hapart := (((henv.mono hown₁).insertMany_mono hbindings).apply (hbefore.mono hown₁)).apart
    (hkeeps.extended hcont₁.pool)
  have hdistinct := hapart.keeps.distinct
  have hinfers := Term.infers_of_run hterm
  have hconfined := hinfers.confined hdistinct hapart.guarded hlits
  obtain ⟨hs, ht⟩ := hinfers.idempotent hdistinct hapart.guarded hlits
  -- the run is about variables that what was known before has left alone
  have hfixes : before.Fixes
      (((env.insertMany bindings).apply before).Scope st₁.pool st₂.pool) := by
    rintro v (hfree | ⟨-, hunused⟩)
    · obtain ⟨w, -, hv⟩ := Env.free_apply hfree
      exact hidem w v hv
    · exact hbefore.image_eq fun hused => hunused (hown₁ v hused).1
  have hfollows : s.Follows before := ⟨_, hconfined.subst, hfixes⟩
  have hcompose := hfollows.idempotent hs hidem
  have hfound : (s.compose before).Fixes (· ∈ t.vars) := fun v hv => by
    rw [image_compose, hfixes v (hconfined.type v hv)]
    exact ht v hv
  have hfollows' : u.Follows (s.compose before) := by
    refine follows_unify hunify ?_
    rintro v (hv | hv)
    · exact hfound v hv
    · rw [← apply_compose] at hv
      exact hcompose.fixes_apply v hv
  refine ⟨bindings, s, t, st₁, hholesRun, hnames, fun binding hmem => (hbindings binding hmem).imp
    fun _ => And.left, hnotes₁, hdistinct, hapart.guarded, hterm,
    hfollows'.idempotent (unify_eliminates hunify).idempotent hcompose, fun σ hσ => ?_⟩
  obtain ⟨hσcompose, hσu⟩ := hfollows'.absorbs hcompose hσ
  obtain ⟨hσbefore, hσs⟩ := hfollows.absorbs hidem hσcompose
  refine ⟨hσbefore, hσs, ?_⟩
  calc σ.apply t
    _ = σ.apply (u.apply t) := (hσu.apply t).symm
    _ = σ.apply (u.apply (s.apply (before.apply expected))) := by rw [unify_apply_eq hunify]
    _ = σ.apply expected := by rw [hσu.apply, hσs.apply, hσbefore.apply]

/-- What an inference with an expected type finds, and how it goes on from what was known. -/
theorem exists_noted_inferAs {before r : Subst} {block : BlockId} {expected : Ty}
    (hpool : st.pool.Distinct) (henv : env.Over st.pool.Uses) (hlits : l.term.LitsGround)
    (hbinders : l.term.BindersIn bound) (hholes : ∀ s ∈ l.holes, bound (holeName s))
    (htracks : known.Tracks bound env) (hbefore : before.Within st.pool.Uses)
    (hidem : before.Idempotent)
    (hrun : (l.inferAs env block expected before).run st = (.ok r, st')) :
    r.Idempotent ∧ (∀ σ : Subst, σ.Absorbs r → σ.Absorbs before) ∧
      ∃ notes t, st'.notes = notes ++ st.notes ∧ ∀ σ : Subst, σ.Absorbs r →
        l.term.Noted (known.apply σ) bound (σ.apply t) (σ.applyNotes notes) := by
  obtain ⟨bindings, s, t, st₁, -, hnames, -, hnotes₁, hdistinct, hguard, hterm, hr, habsorbs⟩ :=
    exists_run_of_inferAs hpool henv hlits hbefore hidem hrun
  have hbound : ∀ binding ∈ bindings, bound binding.1 := by
    intro binding hmem
    have hname : binding.1 ∈ l.holes.map holeName := hnames ▸ List.mem_map_of_mem hmem
    obtain ⟨hole, hhole, heq⟩ := List.mem_map.1 hname
    exact heq ▸ hholes hole hhole
  have htracks' := htracks.insertMany hbound
  obtain ⟨notes, hnotes, hnoted⟩ := Term.exists_noted hdistinct hguard hlits hbinders
    (htracks'.apply before) hterm
  refine ⟨hr, fun σ hσ => (habsorbs σ hσ).1, notes, t, by rw [hnotes, hnotes₁], fun σ hσ => ?_⟩
  obtain ⟨hσbefore, hσs, -⟩ := habsorbs σ hσ
  rw [← htracks'.apply_apply hσbefore]
  exact hnoted σ hσs

end Lowered

/-- All names that blocks bind, and those that stand for holes, satisfy a predicate. -/
structure Shape.BindersIn (sh : Shape) (bound : String → Prop) : Prop where
  binder : ∀ {b p}, sh.ports b = some p → ∀ name ∈ p.kind.binders, bound name
  hole : ∀ s, bound (holeName s)

namespace Graph

open Shape

variable {g : Graph} {b : BlockId} {env : Env} {bound : String → Prop} {pool : VarPool}
  {l : Lowered}

theorem bindersIn_of_lower (h : g.shape.BindersIn bound) (hl : g.lower b = .ok l) :
    l.term.BindersIn bound :=
  bindersIn_lower (fun hb => h.binder (shape_ports_eq_some.2 ⟨_, hb, rfl⟩)) hl

section

variable (hsh : g.shape.Regular ∅) (hground : g.shape.Ground) (hbinders : g.shape.BindersIn bound)
  (henv : env.Serves bound) (hpool : pool.Distinct) (hb : g.shape.Live b) (hl : g.lower b = .ok l)

include hsh hground hbinders henv hpool hb hl

theorem typing_inferSection {s : Subst} {st : InferState}
    (hrun : (l.inferSection env).run (ofPool pool) = (.ok s, st)) :
    g.shape.Typing (env.Uses bound) {c | g.shape.Below c b}
      fun tag => (resolve s st.notes)[tag]? := by
  rw [Lowered.inferSection] at hrun
  obtain ⟨⟨s, t⟩, st, hterm, hrun⟩ := run_bind_eq_ok.1 hrun
  cases hrun
  have hguard := ((Env.Over.of_closed henv.closed _).apart hpool.keeps).guarded
  have hlits := Lowered.litsGround_toSection (litsGround_lower (ground_shape.1 hground) hl)
  have hnames : l.toSection.BindersIn bound := by
    refine (Term.structural_bindersIn (fun _ => True) (fun _ => True) bound).lamAll
      (fun name hname => ?_) (bindersIn_of_lower hbinders hl)
    obtain ⟨hole, -, rfl⟩ := List.mem_map.1 hname
    exact hbinders.hole hole
  have hpool : (ofPool pool).pool.Distinct := hpool
  obtain ⟨notes, hnotes, hnoted⟩ := Term.exists_noted hpool hguard hlits hnames henv.tracks hterm
  obtain ⟨hs, -⟩ := (Term.infers_of_run hterm).idempotent hpool hguard hlits
  have hnoted := hnoted s hs.absorbs
  rw [henv.closed.apply_eq] at hnoted
  obtain ⟨-, result, -, -, hbody⟩ := hnoted.of_lamAll
  rw [show st.notes = notes from hnotes.trans (List.append_nil notes)]
  simp only [getElem?_resolve]
  exact typing_lower hsh henv.prelude hb hl hbody

theorem typing_inferAs {s : Subst} {st : InferState} {expected : Ty}
    (hrun : (l.inferAs env b expected .empty).run (ofPool pool) = (.ok s, st)) :
    g.shape.Typing (env.Uses bound) {c | g.shape.Below c b}
      fun tag => (resolve s st.notes)[tag]? := by
  have hlits := litsGround_lower (ground_shape.1 hground) hl
  have hpool : (ofPool pool).pool.Distinct := hpool
  obtain ⟨hidem, -, notes, t, hnotes, hnoted⟩ := Lowered.exists_noted_inferAs hpool
    (.of_closed henv.closed _) hlits (bindersIn_of_lower hbinders hl)
    (fun hole _ => hbinders.hole hole) henv.tracks .empty idempotent_empty hrun
  have hnoted := hnoted s hidem.absorbs
  rw [henv.closed.apply_eq] at hnoted
  rw [show st.notes = notes from hnotes.trans (List.append_nil notes)]
  simp only [getElem?_resolve]
  exact typing_lower hsh henv.prelude hb hl hnoted

theorem typing_inference {s : Subst} {st : InferState} {expected : Option Ty}
    (hrun : (l.inference env b expected).run (ofPool pool) = (.ok s, st)) :
    g.shape.Typing (env.Uses bound) {c | g.shape.Below c b}
      fun tag => (resolve s st.notes)[tag]? := by
  cases expected with
  | some t => exact typing_inferAs hsh hground hbinders henv hpool hb hl hrun
  | none => exact typing_inferSection hsh hground hbinders henv hpool hb hl hrun

end

end Graph

namespace Shape

variable {sh : Shape} {uses : String → Ty → Prop} {tree tree' : Set BlockId}
  {types types' : Tag → Option Ty} {b c : BlockId} {s : SocketId} {slot : String} {tag : Tag}

/-- What is plugged into a block of the set is in the set. -/
def Downward (sh : Shape) (tree : Set BlockId) : Prop :=
  ∀ {c d}, c ∈ tree → sh.Plugged d c → d ∈ tree

theorem downward_below (b : BlockId) : sh.Downward {c | sh.Below c b} := fun hc hplug =>
  hc.head hplug

theorem Typing.imp (h : sh.Typing uses tree types) {uses' : String → Ty → Prop}
    (huses : ∀ name t, uses name t → uses' name t) : sh.Typing uses' tree types where
  marked := h.marked
  agrees b hb p hp := by
    obtain ⟨inputs, hagrees⟩ := h.agrees b hb hp
    refine ⟨inputs, hagrees.filled, fun hout => ?_, hagrees.curried⟩
    obtain ⟨t, ht, hfits⟩ := hagrees.fits hout
    exact ⟨t, ht, hfits.imp huses⟩

/-- A tag of another block has no type. -/
theorem Typing.eq_none (h : sh.Typing uses tree types) (hmarks : sh.Marks b tag) (hb : b ∉ tree) :
    types tag = none := by
  refine Option.eq_none_iff_forall_ne_some.2 fun t ht => ?_
  obtain ⟨c, hc, hmarks'⟩ := h.marked ht
  exact hb (hmarks.unique hmarks' ▸ hc)

/-- What fills an input of a block has a tag in every downward set that the block is in. -/
theorem Wired.exists_marks_filling (h : sh.Wired) (hdown : sh.Downward tree) (hb : b ∈ tree)
    (hs : sh.site s = some (b, .input slot)) : ∃ c ∈ tree, sh.Marks c (sh.filling s) := by
  cases hguest : sh.guest s with
  | none => exact ⟨b, hb, filling_of_free hguest ▸ ⟨hguest, slot, hs⟩⟩
  | some c =>
      refine ⟨c, hdown hb (h.plugged_of_guest hs hguest), ?_⟩
      exact filling_of_guest hguest ▸ ⟨rfl, h.live_of_guest hguest⟩

/-- Types of two sets of blocks that have nothing in common, in either order. -/
theorem Typing.union (hsh : sh.Wired) (h : sh.Typing uses tree types)
    (h' : sh.Typing uses tree' types') (hdisjoint : Disjoint tree tree')
    (hdown : sh.Downward tree) (hdown' : sh.Downward tree') :
    sh.Typing uses (tree ∪ tree') fun tag => (types' tag).or (types tag) where
  marked {tag t} ht := by
    rcases Option.or_eq_some_iff.1 ht with ht | ⟨-, ht⟩
    · obtain ⟨b, hb, hmarks⟩ := h'.marked ht
      exact ⟨b, .inr hb, hmarks⟩
    · obtain ⟨b, hb, hmarks⟩ := h.marked ht
      exact ⟨b, .inl hb, hmarks⟩
  agrees b hb p hp := by
    rcases hb with hb | hb
    · have hnone : ∀ {c tag}, c ∈ tree → sh.Marks c tag → (types' tag).or (types tag) = types tag :=
        fun hc hmarks => by
          rw [h'.eq_none hmarks (Set.disjoint_left.1 hdisjoint hc), Option.none_or]
      obtain ⟨inputs, hagrees⟩ := h.agrees b hb hp
      refine ⟨inputs, hagrees.congr (hnone hb ⟨rfl, p, hp⟩) fun {slot s} hs => ?_⟩
      obtain ⟨c, hc, hmarks⟩ := hsh.exists_marks_filling hdown hb hs
      exact hnone hc hmarks
    · have hnone : ∀ {c tag}, c ∈ tree' → sh.Marks c tag →
          (types' tag).or (types tag) = types' tag := fun hc hmarks => by
        rw [h.eq_none hmarks (Set.disjoint_right.1 hdisjoint hc), Option.or_none]
      obtain ⟨inputs, hagrees⟩ := h'.agrees b hb hp
      refine ⟨inputs, hagrees.congr (hnone hb ⟨rfl, p, hp⟩) fun {slot s} hs => ?_⟩
      obtain ⟨c, hc, hmarks⟩ := hsh.exists_marks_filling hdown' hb hs
      exact hnone hc hmarks

end Shape

namespace FunctionGroup

variable {g : Graph} {env : Env} {bound : String → Prop} {st : InferState}

theorem run_attempt_eq_ok {α : Type} {x : InferM α} {st' : InferState} {a : α} :
    (attempt x).run st = (.ok a, st') ↔ x.run st = (.ok a, st') := by
  rw [run_attempt]
  rcases x.run st with ⟨e | a', st''⟩
  · constructor <;> (intro h; cases h)
  · exact Iff.rfl

/-- The trees of the functions that are inferred. -/
def trees (sh : Shape) (bodies : List (Member × Ty)) : Set BlockId :=
  {c | ∃ body ∈ bodies, sh.Below c body.1.block}

theorem trees_cons (sh : Shape) (body : Member × Ty) (bodies : List (Member × Ty)) :
    trees sh (body :: bodies) = {c | sh.Below c body.1.block} ∪ trees sh bodies := by
  ext c
  simp [trees]

section

variable (hsh : g.shape.Regular ∅) (hground : g.shape.Ground) (hbinders : g.shape.BindersIn bound)
  (htracks : env.Tracks bound env) (hprelude : ∀ σ : Subst, Prelude.Within (env.apply σ) bound)

include hsh hground hbinders htracks hprelude

/-- If all bodies can be inferred, the types that are found fit together on all of their blocks. -/
theorem typing_inferBodies {bodies : List (Member × Ty)}
    (hlowered : ∀ body ∈ bodies, body.1.lowered = g.lower body.1.block ∧
      g.shape.Live body.1.block)
    (hapart : bodies.Pairwise fun first second =>
      ∀ c, g.shape.Below c first.1.block → ¬ g.shape.Below c second.1.block)
    (hpool : st.pool.Distinct) (henv : env.Over st.pool.Uses)
    (hselves : ∀ body ∈ bodies, body.2.Over st.pool.Uses) {before : Subst}
    (hbefore : before.Within st.pool.Uses) (hidem : before.Idempotent)
    (herrors : ∀ e ∈ ((inferBodies env bodies before).run st).1.2, e = none) :
    let r := (inferBodies env bodies before).run st
    r.1.1.Idempotent ∧ (∀ σ : Subst, σ.Absorbs r.1.1 → σ.Absorbs before) ∧
      ∃ notes, r.2.notes = notes ++ st.notes ∧ ∀ σ : Subst, σ.Absorbs r.1.1 →
        g.shape.Typing ((env.apply σ).Uses bound) (trees g.shape bodies)
          fun tag => (σ.applyNotes notes).lookup tag := by
  induction bodies generalizing st before with
  | nil =>
      refine ⟨hidem, fun σ => id, [], rfl, fun σ _ => ⟨fun {tag t} ht => ?_, fun b hb => ?_⟩⟩
      · cases ht
      · obtain ⟨body, hbody, -⟩ := hb
        exact (List.not_mem_nil hbody).elim
  | cons body bodies ih =>
      obtain ⟨m, self⟩ := body
      rw [List.forall_mem_cons] at hlowered hselves
      rw [List.pairwise_cons] at hapart
      rw [inferBodies, StateT.run_bind] at herrors ⊢
      rcases hattempt : (attempt (inferBody env m self before)).run st with ⟨e | s, st₁⟩ <;>
        rw [hattempt] at herrors
      · have hfailed : some e = none := herrors (some e) List.mem_cons_self
        cases hfailed
      have herrors : ∀ e ∈ ((inferBodies env bodies s).run st₁).1.2, e = none := fun e he =>
        herrors e (List.mem_cons_of_mem _ he)
      have hrun := run_attempt_eq_ok.1 hattempt
      obtain ⟨⟨hlower, hlive⟩, hothers⟩ := hlowered
      cases hl : g.lower m.block with
      | error e =>
          rw [inferBody, hlower, hl] at hrun
          cases hrun
      | ok l =>
          rw [inferBody, hlower, hl] at hrun
          have hlits := Graph.litsGround_lower (Graph.ground_shape.1 hground) hl
          have hkeeps := hpool.keeps
          have hown : ∀ {st : InferState}, st.pool.Own (fun _ => False) = st.pool.Uses :=
            VarPool.own_false
          obtain ⟨hwithin, hcont⟩ := (l.ends_inferAs hkeeps (hown ▸ henv) hlits
            (hown ▸ hselves.1) (hown ▸ hbefore)).of_run_eq hrun
          obtain ⟨hs, habsorbs, notes, t, hnotes, hnoted⟩ := l.exists_noted_inferAs hpool henv hlits
            (Graph.bindersIn_of_lower hbinders hl) (fun hole _ => hbinders.hole hole) htracks
            hbefore hidem hrun
          have hused : ∀ v, st.pool.Uses v → st₁.pool.Uses v := fun v =>
            hcont.pool.keeps hpool
          obtain ⟨hidem', habsorbs', notes', hnotes', htyping⟩ := ih hothers hapart.2
            (hcont.pool.distinct hpool) (henv.mono hused)
            (fun body hmem => (hselves.2 body hmem).mono hused) (hown ▸ hwithin) hs herrors
          refine ⟨hidem', fun σ hσ => habsorbs σ (habsorbs' σ hσ), notes' ++ notes, ?_,
            fun σ hσ => ?_⟩
          · rw [List.append_assoc, ← hnotes]
            exact hnotes'
          · have hfirst := Graph.typing_lower hsh (hprelude σ) hlive hl
              (hnoted σ (habsorbs' σ hσ))
            simp only [trees_cons, applyNotes_append, List.lookup_append]
            refine hfirst.union hsh.toWired (htyping σ hσ) ?_ (Shape.downward_below _) ?_
            · refine Set.disjoint_left.2 fun c hc hother => ?_
              obtain ⟨body, hbody, hc'⟩ := hother
              exact hapart.1 body hbody c hc hc'
            · rintro c d ⟨body, hbody, hc⟩ hplug
              exact ⟨body, hbody, hc.head hplug⟩

end

theorem length_freshVars {α : Type} (xs : List α) (st : InferState) :
    ((xs.mapM fun _ => freshVar).run st).1.length = xs.length := by
  induction xs generalizing st with
  | nil => rfl
  | cons x xs ih =>
      rw [List.mapM_cons]
      exact congrArg (· + 1) (ih { st with pool := st.pool.allocate.2 })

theorem length_inferBodies (env : Env) (bodies : List (Member × Ty)) (s : Subst)
    (st : InferState) : ((inferBodies env bodies s).run st).1.2.length = bodies.length := by
  induction bodies generalizing s st with
  | nil => rfl
  | cons body bodies ih =>
      obtain ⟨m, self⟩ := body
      rw [inferBodies, StateT.run_bind]
      rcases (attempt (inferBody env m self s)).run st with ⟨e | s', st'⟩
      · exact congrArg (· + 1) (ih s st')
      · exact congrArg (· + 1) (ih s' st')

/-- Without an error every member is generalized. -/
theorem run_bindings_eq {s : Subst} {found : List (Ty × Option TypeError)}
    (h : ∀ entry ∈ found, entry.2 = none) :
    (found.mapM fun (self, error) => bindingOf env s self error).run st =
      (found.map fun entry => (env.apply s).generalize (s.apply entry.1), st) := by
  induction found with
  | nil => rfl
  | cons entry found ih =>
      obtain ⟨self, error⟩ := entry
      rw [List.forall_mem_cons] at h
      obtain ⟨rfl, h⟩ := h
      rw [List.mapM_cons, StateT.run_bind]
      exact congrArg (fun r : List Scheme × InferState =>
        ((env.apply s).generalize (s.apply self) :: r.1, r.2)) (ih h)

/-- Nothing went wrong if there is no error to be reported. -/
theorem forall_eq_none {members : List Member} {errors : List (Option TypeError)}
    (hlength : errors.length = members.length)
    (h : ((members.zip errors).filterMap fun entry =>
      entry.2.map fun e => (entry.1.block, e)) = []) : ∀ e ∈ errors, e = none := by
  intro e he
  have hsnd : (members.zip errors).map Prod.snd = errors := List.map_snd_zip hlength.le
  rw [← hsnd] at he
  obtain ⟨entry, hentry, rfl⟩ := List.mem_map.1 he
  exact Option.map_eq_none_iff.1 (List.filterMap_eq_nil_iff.1 h entry hentry)

/-- The environment with the members of a group bound to schemes. -/
def bindAll (env : Env) (members : List Member) (schemes : List Scheme) : Env :=
  env.insertMany ((members.map (·.name)).zip schemes)

theorem over_bindAll (henv : env.Closed) (members : List Member) {selves : List Ty}
    {scope : String → Prop} (hselves : ∀ t ∈ selves, t.Over scope) :
    (bindAll env members (selves.map .mono)).Over scope := by
  refine (Env.Over.of_closed henv scope).insertMany_mono fun binding hmem => ?_
  obtain ⟨t, ht, heq⟩ := List.mem_map.1 (List.of_mem_zip hmem).2
  exact ⟨t, heq.symm, hselves t ht⟩

section

variable {members : List Member} (henv : env.Serves bound)

include henv

/-- What a name is used as within the group it may be used as from outside. -/
theorem uses_of_inner {selves : List Ty} {s : Subst} {name : String} {t : Ty}
    (h : ((bindAll env members (selves.map .mono)).apply s).Uses bound name t) :
    (bindAll env members (selves.map fun self => (env.apply s).generalize (s.apply self))).Uses
      bound name t := by
  refine h.imp_left fun ⟨scheme, hlookup, hinst⟩ => ?_
  rw [Env.lookup_apply, Option.map_eq_some_iff] at hlookup
  obtain ⟨scheme, hlookup, rfl⟩ := hlookup
  have hrelates : Env.Relates (fun scheme scheme' => ∀ t, (s.applyScheme scheme).Instance t →
      scheme'.Instance t) (bindAll env members (selves.map .mono))
      (bindAll env members (selves.map fun self => (env.apply s).generalize (s.apply self))) := by
    refine Env.Relates.insertMany (fun name => ?_) ?_
    · cases hlookup : env.lookup name with
      | none => exact .none
      | some scheme =>
          refine .some fun t ht => ?_
          rwa [s.applyScheme_of_closed (henv.closed name scheme hlookup)] at ht
    · simp only [List.zip_map_right, List.forall₂_map_left_iff, List.forall₂_map_right_iff,
        List.forall₂_same]
      refine fun entry _ => ⟨rfl, fun t ht => ?_⟩
      rw [Prod.map_snd, Subst.applyScheme_mono, Scheme.instance_mono] at ht
      exact ht ▸ Scheme.instance_body ((env.apply s).generalize (s.apply entry.2))
  obtain ⟨scheme', hlookup', himp⟩ := hrelates.left hlookup
  exact ⟨scheme', hlookup', himp t hinst⟩

variable (hnames : ∀ m ∈ members, ¬ bound m.name ∧ Prelude.env.lookup m.name = none)

include hnames

theorem apart_bindAll (schemes : List Scheme) {name : String} (hbound : bound name) :
    (bindAll env members schemes).lookup name = none := by
  refine (Env.lookup_insertMany_of_not_mem fun hmem => ?_).trans (henv.apart hbound)
  obtain ⟨binding, hbinding, rfl⟩ := List.mem_map.1 hmem
  obtain ⟨m, hm, heq⟩ := List.mem_map.1 (List.of_mem_zip hbinding).1
  exact (hnames m hm).1 (heq ▸ hbound)

theorem prelude_bindAll (schemes : List Scheme) :
    Prelude.Within (bindAll env members schemes) bound :=
  henv.prelude.insertMany fun binding hmem => by
    obtain ⟨m, hm, heq⟩ := List.mem_map.1 (List.of_mem_zip hmem).1
    exact heq ▸ (hnames m hm).2

theorem serves_bindAll {schemes : List Scheme}
    (hclosed : ∀ binding ∈ (members.map (·.name)).zip schemes, binding.2.Closed) :
    (bindAll env members schemes).Serves bound where
  closed := henv.closed.insertMany hclosed
  apart := apart_bindAll henv hnames schemes
  prelude := prelude_bindAll henv hnames schemes

end

theorem exists_schemes_eq (env : Env) (members : List Member) (st : InferState) :
    ∃ schemes, ((infer env members).run st).1.schemes = (members.map (·.name)).zip schemes := by
  rw [run_infer_eq]
  exact ⟨_, rfl⟩

/-- What goes wrong is reported of a member. -/
theorem exists_member_of_mem_errors {members : List Member} {error : BlockId × TypeError}
    (h : error ∈ ((infer env members).run st).1.errors) : ∃ m ∈ members, m.block = error.1 := by
  rw [run_infer_eq] at h
  obtain ⟨entry, hentry, heq⟩ := List.mem_filterMap.1 h
  obtain ⟨e, -, rfl⟩ := Option.map_eq_some_iff.1 heq
  exact ⟨entry.1, (List.of_mem_zip hentry).1, rfl⟩

/-- If all members can be inferred, the types that are found fit together on all of their blocks,
as seen from outside. -/
theorem typing_infer (hsh : g.shape.Regular ∅) (hground : g.shape.Ground)
    (hbinders : g.shape.BindersIn bound) (henv : env.Serves bound) {members : List Member}
    (hlowered : ∀ m ∈ members, m.lowered = g.lower m.block ∧ g.shape.Live m.block)
    (hapart : members.Pairwise fun m m' =>
      ∀ c, g.shape.Below c m.block → ¬ g.shape.Below c m'.block)
    (hnames : ∀ m ∈ members, ¬ bound m.name ∧ Prelude.env.lookup m.name = none) {pool : VarPool}
    (hpool : pool.Distinct)
    (herrors : ((infer env members).run (ofPool pool)).1.errors = []) :
    let r := (infer env members).run (ofPool pool)
    g.shape.Typing ((env.insertMany r.1.schemes).Uses bound)
      {c | ∃ m ∈ members, g.shape.Below c m.block} fun tag => r.1.types[tag]? := by
  obtain ⟨hselves, hcont⟩ := @run_freshVars _ (ofPool pool) _ hpool.keeps members
  have hfresh := tagsIn_freshVars members (ofPool pool)
  have hlength := length_freshVars members (ofPool pool)
  rw [run_infer_eq] at herrors ⊢
  generalize (members.mapM fun _ => freshVar).run (ofPool pool) = r₁
    at herrors hselves hcont hfresh hlength ⊢
  obtain ⟨selves, st₁⟩ := r₁
  rw [VarPool.own_false] at hselves
  have hbodies : ∀ body ∈ members.zip selves, body.1 ∈ members ∧ body.2 ∈ selves := fun body hmem =>
    List.of_mem_zip hmem
  have hmembers : (members.zip selves).map Prod.fst = members := List.map_fst_zip hlength.ge
  have hinner := over_bindAll henv.closed members hselves
  have herrorsLength := length_inferBodies (bindAll env members (selves.map .mono))
    (members.zip selves) .empty st₁
  rw [List.length_zip, hlength, Nat.min_self] at herrorsLength
  have hnone := forall_eq_none herrorsLength herrors
  obtain ⟨hidem, -, notes, hnotes, htyping⟩ := typing_inferBodies hsh hground hbinders
    (hinner.tracks (apart_bindAll henv hnames _))
    (fun σ => (prelude_bindAll henv hnames _).apply σ)
    (fun body hmem => hlowered body.1 (hbodies body hmem).1)
    (List.Pairwise.of_map Prod.fst (fun _ _ => id) (hmembers.symm ▸ hapart))
    (hcont.pool.distinct hpool) hinner (fun body hmem => hselves body.2 (hbodies body hmem).2)
    .empty idempotent_empty hnone
  have huses := fun name t => @uses_of_inner env bound members henv selves
    ((inferBodies (bindAll env members (selves.map .mono)) (members.zip selves) .empty).run
      st₁).1.1 name t
  unfold bindAll at hidem hnotes htyping hnone huses
  unfold bindAll at herrorsLength
  dsimp only at hidem hnotes htyping hnone huses herrorsLength ⊢
  generalize (inferBodies _ (members.zip selves) .empty).run st₁ = r₂
    at hidem hnotes htyping hnone huses herrorsLength ⊢
  obtain ⟨⟨s, errors⟩, st₂⟩ := r₂
  dsimp only at hidem hnotes htyping hnone huses herrorsLength ⊢
  have hschemes : (selves.zip errors).map (fun entry =>
      (env.apply s).generalize (s.apply entry.1)) =
      selves.map fun self => (env.apply s).generalize (s.apply self) := by
    have hzip : (selves.zip errors).map Prod.fst = selves :=
      List.map_fst_zip (hlength.trans herrorsLength.symm).le
    conv_rhs => rw [← hzip, List.map_map]
    rfl
  have htrees : trees g.shape (members.zip selves) =
      {c | ∃ m ∈ members, g.shape.Below c m.block} := by
    ext c
    constructor
    · rintro ⟨body, hbody, hc⟩
      exact ⟨body.1, (hbodies body hbody).1, hc⟩
    · rintro ⟨m, hm, hc⟩
      rw [← hmembers] at hm
      obtain ⟨body, hbody, rfl⟩ := List.mem_map.1 hm
      exact ⟨body, hbody, hc⟩
  rw [run_bindings_eq fun entry hentry => hnone entry.2 (List.of_mem_zip hentry).2, hschemes,
    hnotes, hfresh, ← htrees]
  simp only [getElem?_resolve]
  exact ((List.append_nil notes).symm ▸ htyping s hidem.absorbs).imp huses

end FunctionGroup

end Plugboard
