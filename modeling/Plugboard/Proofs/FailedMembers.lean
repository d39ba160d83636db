import Plugboard.Proofs.GroupTypes
import Plugboard.Proofs.NameIndependence

/-!
# Members that fail

The members of a group are inferred together, and what is wrong with some of them does not show in
the others. The others have the types that are found for them, and these are the ones that would be
found if nothing were inferred for the members that fail.
-/

namespace Plugboard

open Equiv InferM

/-- The member with a body that is passed over. -/
def Member.skipped (m : Member) : Member := { m with lowered := .error (.unknownBlock m.block) }

theorem Term.tagsIn_true (e : Term) : e.TagsIn fun _ => True := by
  induction e <;> simp_all [TagsIn, Marked]

namespace FunctionGroup

variable {env env' : Env} {m : Member} {members : List Member} {self : Ty} {s : Subst}
  {st st' : InferState} {p : Pairing}

/-- The members, with a body that is passed over where there is an error. -/
def skipping (members : List Member) (errors : List (Option TypeError)) : List Member :=
  List.zipWith (fun m error => if error.isSome then m.skipped else m) members errors

theorem skipping_cons_some (m : Member) (members : List Member) (e : TypeError)
    (errors : List (Option TypeError)) :
    skipping (m :: members) (some e :: errors) = m.skipped :: skipping members errors := rfl

theorem skipping_cons_none (m : Member) (members : List Member)
    (errors : List (Option TypeError)) :
    skipping (m :: members) (none :: errors) = m :: skipping members errors := rfl

section

variable {bodies : List (Member × Ty)}

theorem run_inferBodies_ok {s' : Subst}
    (h : (attempt (inferBody env m self s)).run st = (.ok s', st')) :
    (inferBodies env ((m, self) :: bodies) s).run st =
      let r := (inferBodies env bodies s').run st'
      ((r.1.1, none :: r.1.2), r.2) := by
  rw [inferBodies, StateT.run_bind, h]
  rfl

theorem run_inferBodies_error {e : TypeError}
    (h : (attempt (inferBody env m self s)).run st = (.error e, st')) :
    (inferBodies env ((m, self) :: bodies) s).run st =
      let r := (inferBodies env bodies s).run st'
      ((r.1.1, some e :: r.1.2), r.2) := by
  rw [inferBodies, StateT.run_bind, h]
  rfl

end

/-- Nothing is allocated or noted for a body that is passed over. -/
theorem run_attempt_skipped (env : Env) (m : Member) (self : Ty) (s : Subst) (st : InferState) :
    (attempt (inferBody env m.skipped self s)).run st =
      (.error (.structural (.unknownBlock m.block)), st) := by
  rw [run_attempt]
  change (_, { st with notes := st.notes.drop (st.notes.length - st.notes.length) }) = _
  rw [Nat.sub_self, List.drop_zero]

/-- A body that fails leaves the notes as they were. -/
theorem notes_of_attempt_error {e : TypeError}
    (h : (attempt (inferBody env m self s)).run st = (.error e, st')) :
    st'.notes = st.notes := by
  have hkept : Preserves (st.notes <:+ ·.notes) (inferBody env m self s) :=
    preserves_inferBody (InferState.stable_suffix st.notes) (fun l _ => l.term.tagsIn_true) self s
  have hsuffix := (hkept st List.suffix_rfl).state
  rw [run_attempt] at h
  generalize (inferBody env m self s).run st = out at h hsuffix
  rcases out with ⟨e | s, mid⟩
  · obtain ⟨old, hold⟩ := hsuffix
    cases h
    dsimp only at hold ⊢
    rw [← hold, List.length_append, Nat.add_sub_cancel, List.drop_left]
  · cases h

/-- The run in which the body of a member is passed over is still paired with the one in which it
fails. -/
theorem exists_states_of_error {q : Pairing} {mid mid' : InferState} {e : TypeError} (hle : p ≤ q)
    (hst : p.States st st') (hmid : q.States mid mid')
    (h : (attempt (inferBody env m self s)).run st = (.error e, mid)) :
    ∃ r, p ≤ r ∧ r.States mid st' := by
  let r : Pairing :=
    { p with
      left := q.left
      left_distinct := q.left_distinct
      left_used := fun v hv => hle.left_used v (p.left_used v hv) }
  have hr : p ≤ r :=
    ⟨fun _ => id, fun _ _ => rfl, hle.left_used, fun _ => id, fun _ => .inl, fun _ => .inl⟩
  refine ⟨r, hr, hmid.left, hst.right, ?_⟩
  rw [notes_of_attempt_error h]
  exact Pairing.lasting_notes.forall₂ hr hst.notes

/-- There is an error in the same places. -/
abbrev FailAlike : List (Option TypeError) → List (Option TypeError) → Prop :=
  List.Forall₂ (Option.Rel fun _ _ => True)

/-- The bodies that do not fail lead to the same if the others are passed over. -/
theorem exists_skipping_inferBodies
    (hlits : ∀ m ∈ members, ∀ l, m.lowered = .ok l → l.term.LitsGround)
    (henv : p.Envs env env') {selves selves' : List Ty}
    (hselves : List.Forall₂ p.Types selves selves') {s s' : Subst} (hs : p.Substs s s')
    (hst : p.States st st') :
    let r := (inferBodies env (members.zip selves) s).run st
    let r' := (inferBodies env' ((skipping members r.1.2).zip selves') s').run st'
    ∃ q, p ≤ q ∧ q.Substs r.1.1 r'.1.1 ∧ FailAlike r.1.2 r'.1.2 ∧ q.States r.2 r'.2 := by
  induction members generalizing p s s' selves selves' st st' with
  | nil => exact ⟨p, le_rfl, hs, .nil, hst⟩
  | cons m members ih =>
      rw [List.forall_mem_cons] at hlits
      cases hselves with
      | nil => exact ⟨p, le_rfl, hs, .nil, hst⟩
      | @cons self self' selves selves' hself hselves =>
          have hfirst := Pairing.parallel_inferBody hlits.1 henv hself hs
          rcases hrun : (attempt (inferBody env m self s)).run st with ⟨e | s₁, mid⟩
          · obtain ⟨q, hq, -, hmid⟩ := Pairing.inStep_attempt hfirst st st' hst
            rw [hrun] at hmid
            obtain ⟨r, hr, hst⟩ := exists_states_of_error hq hst hmid hrun
            obtain ⟨q, hq, hsubsts, halike, hend⟩ :=
              ih hlits.2 (Pairing.lasting_envs hr henv) (Pairing.lasting_types.forall₂ hr hselves)
                (Pairing.lasting_substs hr hs) hst
            rw [List.zip_cons_cons, run_inferBodies_error hrun]
            dsimp only
            rw [skipping_cons_some, List.zip_cons_cons,
              run_inferBodies_error (run_attempt_skipped env' m self' s' st')]
            exact ⟨q, hr.trans hq, hsubsts, .cons (.some trivial) halike, hend⟩
          · obtain ⟨q, s₁', mid', hq, hrun', hs, hmid⟩ :=
              hfirst.exists_run hst (run_attempt_eq_ok.1 hrun)
            obtain ⟨r, hr, hsubsts, halike, hend⟩ :=
              ih hlits.2 (Pairing.lasting_envs hq henv) (Pairing.lasting_types.forall₂ hq hselves)
                hs hmid
            rw [List.zip_cons_cons, run_inferBodies_ok hrun]
            dsimp only
            rw [skipping_cons_none, List.zip_cons_cons,
              run_inferBodies_ok (run_attempt_eq_ok.2 hrun')]
            exact ⟨r, hq.trans hr, hsubsts, .cons .none halike, hend⟩

/-- A member keeps its name if its body is passed over. -/
theorem forall₂_skipping {errors : List (Option TypeError)}
    (h : errors.length = members.length) :
    List.Forall₂ (fun m m' : Member => m.name = m'.name) members (skipping members errors) := by
  induction members generalizing errors with
  | nil =>
      rw [skipping, List.zipWith_nil_left]
      exact .nil
  | cons m members ih =>
      cases errors with
      | nil => cases h
      | cons error errors =>
          cases error with
          | none => exact .cons rfl (ih (Nat.succ.inj h))
          | some e => exact .cons rfl (ih (Nat.succ.inj h))

theorem map_name_skipping {errors : List (Option TypeError)}
    (h : errors.length = members.length) :
    (skipping members errors).map (·.name) = members.map (·.name) := by
  have hnames := List.forall₂_map_left_iff.2 (List.forall₂_map_right_iff.2 (forall₂_skipping h))
  rw [List.forall₂_eq_eq_eq] at hnames
  exact hnames.symm

/-- What is known of a group in the end is the same if nothing is inferred for the members that
fail. -/
theorem exists_skipping_solve (henv : env.Closed)
    (hlits : ∀ m ∈ members, ∀ l, m.lowered = .ok l → l.term.LitsGround) {pool : VarPool}
    (hpool : pool.Distinct) :
    let r := (solve env members).run (ofPool pool)
    let r' := (solve env (skipping members r.1.errors)).run (ofPool pool)
    ∃ q : Pairing, List.Forall₂ q.Types r.1.selves r'.1.selves ∧ q.Substs r.1.subst r'.1.subst ∧
      FailAlike r.1.errors r'.1.errors ∧ q.States r.2 r'.2 := by
  rcases hfirst : (members.mapM fun _ => freshVar).run (ofPool pool) with ⟨selves, mid⟩
  rcases hbodies : (inferBodies (bindAll env members (selves.map .mono)) (members.zip selves)
    .empty).run mid with ⟨⟨s, errors⟩, st⟩
  have herrors := (length_solve env members (ofPool pool)).2
  rw [run_solve hfirst hbodies] at herrors ⊢
  dsimp only at herrors ⊢
  -- nothing is known on either side before the variables of the members are handed out
  let p₀ := Pairing.shared (fun _ => False) hpool hpool (fun _ => False.elim) fun _ => False.elim
  obtain ⟨p, -, hselves, hmid⟩ := Pairing.inStep_freshVars (p := p₀) (forall₂_skipping herrors)
    (ofPool pool) (ofPool pool) ⟨rfl, rfl, .nil⟩
  rcases hfirst' : ((skipping members errors).mapM fun _ => freshVar).run (ofPool pool) with
    ⟨selves', mid'⟩
  rw [hfirst, hfirst'] at hselves hmid
  have hinner : p.Envs (bindAll env members (selves.map .mono))
      (bindAll env (skipping members errors) (selves'.map .mono)) := by
    rw [bindAll, bindAll, map_name_skipping herrors]
    exact Pairing.envs_insertMany_mono (.of_closed henv) _ hselves
  have hpaired := exists_skipping_inferBodies hlits hinner hselves .empty hmid
  rw [hbodies] at hpaired
  dsimp only at hpaired
  rcases hbodies' : (inferBodies (bindAll env (skipping members errors) (selves'.map .mono))
    ((skipping members errors).zip selves') .empty).run mid' with ⟨⟨s', errors'⟩, st'⟩
  rw [hbodies'] at hpaired
  obtain ⟨q, hle, hs, halike, hend⟩ := hpaired
  rw [run_solve hfirst' hbodies']
  exact ⟨q, Pairing.lasting_types.forall₂ hle hselves, hs, halike, hend⟩

/-- The scheme of a member that fails has every type as an instance. -/
theorem closed_bindings (s : Subst) {selves : List Ty} {errors : List (Option TypeError)}
    (h : selves.length = errors.length) :
    List.Forall₂ (fun error scheme => error.isSome → ∃ a, scheme = ⟨[a], .var a⟩) errors
      (((selves.zip errors).mapM fun (self, error) => bindingOf env s self error).run st).1 := by
  induction errors generalizing selves st with
  | nil =>
      rw [List.zip_nil_right]
      exact .nil
  | cons error errors ih =>
      cases selves with
      | nil => cases h
      | cons self selves =>
          replace h := Nat.succ.inj h
          rw [List.zip_cons_cons, List.mapM_cons, StateT.run_bind]
          cases error with
          | none => exact .cons (fun herror => nomatch herror) (ih h)
          | some e =>
              exact .cons (fun _ => ⟨_, rfl⟩) (@ih { st with pool := st.pool.allocate.2 } selves h)

/-- The names that are in scope where the body of a member begins. -/
inductive InScope (env : Env) (members : List Member) (l : Lowered) : String → Prop
  | env {name : String} {scheme : Scheme} (h : env.lookup name = some scheme) :
      InScope env members l name
  | member {m : Member} (h : m ∈ members) : InScope env members l m.name
  | hole {s : SocketId} (h : s ∈ l.holes) : InScope env members l (holeName s)

/-- By the rules every member that does not fail has the type that is found for it, where all
members are bound to the types that are found for them and the holes to types. -/
structure Solution.Sound (found : Solution) (env : Env) (members : List Member) : Prop where
  selves : found.selves.length = members.length
  errors : found.errors.length = members.length
  typed : ∀ entry ∈ (members.zip found.selves).zip found.errors, entry.2 = none →
    ∃ (l : Lowered) (holes : List Ty), entry.1.1.lowered = .ok l ∧
      holes.length = l.holes.length ∧
      HasType
        ((bindAll env members (found.selves.map fun self =>
          .mono (found.subst.apply self))).insertMany
            ((l.holes.map holeName).zip (holes.map .mono)))
        l.term (found.subst.apply entry.1.2)

/-- The members that fail are reported and are bound to `forall a. a`, and types are given with what
is known in the end. -/
structure Solution.Gives (found : Solution) (members : List Member) (g : GroupTyping) : Prop where
  names : g.schemes.map (·.1) = members.map (·.name)
  failed : List.Forall₂ (fun error b => error.isSome → ∃ a, b.2 = ⟨[a], .var a⟩)
    found.errors g.schemes
  errors : g.errors = (members.zip found.errors).filterMap fun entry =>
    entry.2.map fun e => (entry.1.block, e)
  types : ∃ notes, g.types = resolve found.subst notes

end FunctionGroup

/-- The second scheme is the first one with all its variables renamed, and may list those that it
quantifies in another order. -/
structure Scheme.Renamed (π : Perm String) (scheme scheme' : Scheme) : Prop where
  body : scheme'.body = scheme.body.rename π
  vars : ∀ v, π v ∈ scheme'.vars ↔ v ∈ scheme.vars

/-- The same names and nodes, with renamed schemes and types. -/
structure GroupTyping.Renamed (π : Perm String) (g g' : GroupTyping) : Prop where
  schemes : List.Forall₂ (fun b b' => b.1 = b'.1 ∧ b.2.Renamed π b'.2) g.schemes g'.schemes
  types : ∀ tag : Tag, g'.types[tag]? = g.types[tag]?.map (Ty.rename π)

namespace FunctionGroup

variable {env : Env} {members : List Member} {pool : VarPool}

theorem sound_solve (henv : env.Closed)
    (hlits : ∀ m ∈ members, ∀ l, m.lowered = .ok l → l.term.LitsGround)
    (hlets : ∀ m ∈ members, ∀ l, m.lowered = .ok l → l.term.NewLets (InScope env members l))
    (hpool : pool.Distinct) : ((solve env members).run (ofPool pool)).1.Sound env members := by
  obtain ⟨hselves, herrors⟩ := length_solve env members (ofPool pool)
  have htyped := hasTypeUnder_solve henv hlits
    (fun m hm l hl => definesNew_bindAll (fun _ _ => .env) (fun _ => .member) (fun _ => .hole)
      (hlets m hm l hl)) hpool
  refine ⟨hselves, herrors, fun entry hentry hnone => ?_⟩
  obtain ⟨l, hl, holes, hholes, htype⟩ := htyped entry hentry hnone
  refine ⟨l, holes, hl, hholes, htype _ (relates_insertMany henv ?_)⟩
  rw [List.forall₂_map_right_iff, List.forall₂_same]
  exact fun _ _ => Scheme.instance_mono.2 rfl

theorem gives_infer (env : Env) (members : List Member) (st : InferState) :
    ((solve env members).run st).1.Gives members ((infer env members).run st).1 := by
  obtain ⟨hselves, herrors⟩ := length_solve env members st
  rw [run_infer_eq_solve]
  generalize (solve env members).run st = r at hselves herrors ⊢
  obtain ⟨⟨selves, s, errors⟩, mid⟩ := r
  dsimp only at hselves herrors ⊢
  have hclosed := @closed_bindings env mid s selves errors (hselves.trans herrors.symm)
  generalize ((selves.zip errors).mapM fun x => bindingOf env s x.1 x.2).run mid = out
    at hclosed ⊢
  have hlength : out.1.length = (members.map (·.name)).length := by
    rw [← hclosed.length_eq, herrors, List.length_map]
  refine ⟨List.map_fst_zip hlength.ge, ?_, rfl, mid.notes, rfl⟩
  rw [← List.map_snd_zip hlength.le] at hclosed
  exact List.forall₂_map_right_iff.1 hclosed

/-- Passing over the bodies of the members that fail makes no difference but for names. -/
theorem exists_renamed_skipping (henv : env.Closed)
    (hlits : ∀ m ∈ members, ∀ l, m.lowered = .ok l → l.term.LitsGround) (hpool : pool.Distinct) :
    let errors := ((solve env members).run (ofPool pool)).1.errors
    ∃ π : Perm String, ((infer env members).run (ofPool pool)).1.Renamed π
      ((infer env (skipping members errors)).run (ofPool pool)).1 := by
  have hlength := (length_solve env members (ofPool pool)).2
  have hsolve := exists_skipping_solve henv hlits hpool
  rw [run_infer_eq_solve]
  generalize (solve env members).run (ofPool pool) = r at hlength hsolve ⊢
  obtain ⟨⟨selves, s, errors⟩, st⟩ := r
  dsimp only at hlength hsolve ⊢
  rw [run_infer_eq_solve]
  generalize (solve env (skipping members errors)).run (ofPool pool) = r' at hsolve ⊢
  obtain ⟨⟨selves', s', errors'⟩, st'⟩ := r'
  obtain ⟨p, hselves, hs, halike, hst⟩ := hsolve
  obtain ⟨q, hle, hschemes, -⟩ :=
    Pairing.inStep_bindings (.of_closed henv) hs hselves halike st st' hst
  refine ⟨q.rename, ?_, fun tag => ?_⟩
  · dsimp only
    rw [map_name_skipping hlength]
    exact forall₂_zip (List.forall₂_refl _) (hschemes.imp fun _ _ h => ⟨h.body.eq, h.vars⟩)
  · have htagged := (Pairing.lasting_substs hle hs).tagged
      (Pairing.lasting_notes.forall₂ hle hst.notes)
    exact Pairing.eq_map_of_types? (htagged tag)

/-- A group is inferred soundly, and its members that fail make no difference to the others. -/
theorem infer_skipping (henv : env.Closed)
    (hlits : ∀ m ∈ members, ∀ l, m.lowered = .ok l → l.term.LitsGround)
    (hlets : ∀ m ∈ members, ∀ l, m.lowered = .ok l → l.term.NewLets (InScope env members l))
    (hpool : pool.Distinct) :
    let found := ((solve env members).run (ofPool pool)).1
    let group := ((infer env members).run (ofPool pool)).1
    let others := skipping members found.errors
    let found' := ((solve env others).run (ofPool pool)).1
    let group' := ((infer env others).run (ofPool pool)).1
    found.Sound env members ∧ found.Gives members group ∧ found'.Gives others group' ∧
      FailAlike found.errors found'.errors ∧ ∃ π : Perm String, group.Renamed π group' := by
  obtain ⟨-, -, -, halike, -⟩ := exists_skipping_solve henv hlits hpool
  exact ⟨sound_solve henv hlits hlets hpool, gives_infer env members _, gives_infer env _ _, halike,
    exists_renamed_skipping henv hlits hpool⟩

/-- A function calls another one, which applies its parameter to itself. -/
theorem infer_skipping_self_application :
    let members : List Member := [
      ⟨⟨0⟩, "f", .ok ⟨.lam "x" (.app (.var "x" none) (.var "x" none) none) none, []⟩⟩,
      ⟨⟨1⟩, "g", .ok ⟨.lam "y" (.app (.var "f" none) (.var "y" none) none) none, []⟩⟩]
    let found := ((solve .empty members).run (ofPool VarPool.default)).1
    ((infer .empty members).run (ofPool VarPool.default)).1.schemes =
        [("f", ⟨["G"], .var "G"⟩), ("g", ⟨["E", "F"], .fn (.var "E") (.var "F")⟩)] ∧
      ((infer .empty (skipping members found.errors)).run (ofPool VarPool.default)).1.schemes =
        [("f", ⟨["E"], .var "E"⟩), ("g", ⟨["C", "D"], .fn (.var "C") (.var "D")⟩)] ∧
      ∃ π : Perm String, Scheme.Renamed π ⟨["E", "F"], .fn (.var "E") (.var "F")⟩
        ⟨["C", "D"], .fn (.var "C") (.var "D")⟩ := by
  intro members found
  have hschemes : ((infer .empty members).run (ofPool VarPool.default)).1.schemes =
      [("f", ⟨["G"], .var "G"⟩), ("g", ⟨["E", "F"], .fn (.var "E") (.var "F")⟩)] := by cbv
  have hschemes' :
      ((infer .empty (skipping members found.errors)).run (ofPool VarPool.default)).1.schemes =
        [("f", ⟨["E"], .var "E"⟩), ("g", ⟨["C", "D"], .fn (.var "C") (.var "D")⟩)] := by cbv
  have hlowered : ∀ m ∈ members, ∀ l, m.lowered = .ok l →
      l.term.LitsGround ∧ l.term.NewLets (InScope .empty members l) := by
    simp [members, Term.LitsGround, Term.NewLets]
  have hpool : VarPool.default.Distinct := VarPool.distinct_withColour _
  obtain ⟨-, -, -, -, π, hrenamed⟩ := infer_skipping .empty
    (fun m hm l hl => (hlowered m hm l hl).1) (fun m hm l hl => (hlowered m hm l hl).2) hpool
  have hrest := hrenamed.schemes
  rw [hschemes, hschemes'] at hrest
  cases hrest with
  | cons _ hrest =>
      cases hrest with
      | cons hg _ => exact ⟨hschemes, hschemes', π, hg.2⟩

end FunctionGroup

end Plugboard
