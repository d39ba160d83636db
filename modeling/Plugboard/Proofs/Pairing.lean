import Plugboard.Proofs.Equivariance
import Plugboard.Proofs.InferenceScope
import Plugboard.Proofs.KeptTypes
import Plugboard.Proofs.Typing

/-!
# Type variables of two runs

Two runs that take their variables from different pools use different names for the same thing. A
pairing tells which name on the right stands for which name on the left. It counts for the names
that are known so far; names that are handed out later are added to it, and what is known stays as
it is.
-/

namespace Plugboard

open Equiv

/-- A renaming that counts for some names, all of which are in use on both sides. -/
structure Pairing where
  rename : Perm String
  known : String → Prop
  left : VarPool
  right : VarPool
  left_distinct : left.Distinct
  right_distinct : right.Distinct
  left_used : ∀ v, known v → left.isUsed v
  right_used : ∀ v, known v → right.isUsed (rename v)

namespace Pairing

/-- More is known, and all of that is new on both sides. -/
structure Extends (p q : Pairing) : Prop where
  known : ∀ v, p.known v → q.known v
  rename : ∀ v, p.known v → q.rename v = p.rename v
  left_used : ∀ v, p.left.isUsed v → q.left.isUsed v
  right_used : ∀ v, p.right.isUsed v → q.right.isUsed v
  left_new : ∀ v, q.known v → p.known v ∨ ¬ p.left.isUsed v
  right_new : ∀ v, q.known v → p.known v ∨ ¬ p.right.isUsed (q.rename v)

instance : Preorder Pairing where
  le := Extends
  le_refl _ := ⟨fun _ => id, fun _ _ => rfl, fun _ => id, fun _ => id, fun _ => .inl, fun _ => .inl⟩
  le_trans p q r hpq hqr :=
    { known := fun v hv => hqr.known v (hpq.known v hv)
      rename := fun v hv => (hqr.rename v (hpq.known v hv)).trans (hpq.rename v hv)
      left_used := fun v hv => hqr.left_used v (hpq.left_used v hv)
      right_used := fun v hv => hqr.right_used v (hpq.right_used v hv)
      left_new := fun v hv => (hqr.left_new v hv).elim (hpq.left_new v) fun hnew =>
        .inr fun hold => hnew (hpq.left_used v hold)
      right_new := fun v hv => (hqr.right_new v hv).elim
        (fun hq => (hpq.right_new v hq).imp_right fun hnew => hqr.rename v hq ▸ hnew)
        fun hnew => .inr fun hold => hnew (hpq.right_used _ hold) }

variable {p q : Pairing}

/-- Names that are not known yet are taken to names that are not known yet. -/
theorem exists_unknown (h : p ≤ q) {v : String} (hv : ¬ p.known v) :
    ∃ u, ¬ p.known u ∧ p.rename u = q.rename v := by
  refine ⟨p.rename.symm (q.rename v), fun hu => hv ?_, p.rename.apply_symm_apply _⟩
  have heq := h.rename _ hu
  rw [Equiv.apply_symm_apply] at heq
  rwa [q.rename.injective heq] at hu

/-- Names that have just been handed out on both sides can be paired at will. -/
theorem exists_extension (p : Pairing) (pairs : List (String × String)) {left right : VarPool}
    (hfst : (pairs.map Prod.fst).Nodup) (hsnd : (pairs.map Prod.snd).Nodup)
    (hleft : left.Distinct) (hright : right.Distinct)
    (hkeepsLeft : ∀ v, p.left.isUsed v → left.isUsed v)
    (hkeepsRight : ∀ v, p.right.isUsed v → right.isUsed v)
    (hpairs : ∀ n ∈ pairs, (¬ p.left.isUsed n.1 ∧ left.isUsed n.1) ∧
      ¬ p.right.isUsed n.2 ∧ right.isUsed n.2) :
    ∃ q, p ≤ q ∧ q.left = left ∧ q.right = right ∧
      ∀ n ∈ pairs, q.known n.1 ∧ q.rename n.1 = n.2 := by
  obtain ⟨ρ, hρ, hagrees⟩ := exists_perm_agreeing hfst hsnd p.rename
  have hsame : ∀ v, p.known v → ρ v = p.rename v := by
    intro v hv
    refine hagrees v (fun hmem => ?_) fun hmem => ?_
    · obtain ⟨n, hn, rfl⟩ := List.mem_map.1 hmem
      exact (hpairs n hn).1.1 (p.left_used _ hv)
    · obtain ⟨n, hn, heq⟩ := List.mem_map.1 hmem
      exact (hpairs n hn).2.1 (heq ▸ p.right_used v hv)
  let q : Pairing :=
    { rename := ρ
      known := fun v => p.known v ∨ ∃ n ∈ pairs, n.1 = v
      left := left
      right := right
      left_distinct := hleft
      right_distinct := hright
      left_used := by
        rintro v (hv | ⟨n, hn, rfl⟩)
        · exact hkeepsLeft v (p.left_used v hv)
        · exact (hpairs n hn).1.2
      right_used := by
        rintro v (hv | ⟨n, hn, rfl⟩)
        · rw [hsame v hv]
          exact hkeepsRight _ (p.right_used v hv)
        · rw [hρ n hn]
          exact (hpairs n hn).2.2 }
  refine ⟨q, ⟨fun _ => .inl, hsame, hkeepsLeft, hkeepsRight, ?_, ?_⟩, rfl, rfl,
    fun n hn => ⟨.inr ⟨n, hn, rfl⟩, hρ n hn⟩⟩
  · rintro v (hv | ⟨n, hn, rfl⟩)
    · exact .inl hv
    · exact .inr (hpairs n hn).1.1
  · rintro v (hv | ⟨n, hn, rfl⟩)
    · exact .inl hv
    · exact .inr (hρ n hn ▸ (hpairs n hn).2.1)

/-- The type on the right is the one on the left, whose variables are all known, renamed. -/
structure Types (p : Pairing) (t t' : Ty) : Prop where
  known : t.Over p.known
  eq : t' = t.rename p.rename

theorem lasting_types : Lasting Types := by
  rintro p q t _ h ⟨hover, rfl⟩
  exact ⟨hover.mono h.known, Ty.rename_congr fun v hv => (h.rename v (hover v hv)).symm⟩

theorem eq_map_of_types? {t t' : Option Ty} (h : Option.Rel p.Types t t') :
    t' = t.map (Ty.rename p.rename) := by
  cases h with
  | none => rfl
  | some ht => exact congrArg some ht.eq

namespace Types

variable {t t' u u' : Ty}

theorem var {v v' : String} (hv : p.known v) (heq : p.rename v = v') :
    p.Types (.var v) (.var v') :=
  ⟨.var hv, by rw [Ty.rename_var, heq]⟩

theorem fn (ht : p.Types t t') (hu : p.Types u u') : p.Types (.fn t u) (.fn t' u') :=
  ⟨Ty.Over.fn_iff.2 ⟨ht.known, hu.known⟩, by rw [Ty.rename_fn, ht.eq, hu.eq]⟩

theorem list (ht : p.Types t t') : p.Types t.list t'.list :=
  ⟨ht.known.list, by rw [ht.eq]; simp [Ty.list]⟩

theorem curried {args args' : List Ty} (hargs : List.Forall₂ p.Types args args')
    (ht : p.Types t t') : p.Types (.curried args t) (.curried args' t') := by
  induction hargs with
  | nil => exact ht
  | cons harg _ ih => exact harg.fn ih

theorem of_ground (h : t.vars = []) : p.Types t t :=
  ⟨by simp [Ty.Over, h], (Ty.rename_of_ground h).symm⟩

theorem uncurry (ht : p.Types t t') (limit : Nat) :
    List.Forall₂ p.Types (t.uncurry limit).1 (t'.uncurry limit).1 ∧
      p.Types (t.uncurry limit).2 (t'.uncurry limit).2 := by
  obtain ⟨hargs, hrest⟩ := ht.known.uncurry limit
  rw [ht.eq, Ty.uncurry_rename]
  refine ⟨?_, hrest, rfl⟩
  rw [List.forall₂_map_right_iff, List.forall₂_same]
  exact fun u hu => ⟨hargs u hu, rfl⟩

end Types

/-- The substitutions do the same to paired types. -/
structure Substs (p : Pairing) (s s' : Subst) : Prop where
  within : s.Within p.known
  renamed : s.Renamed p.rename s'

theorem lasting_substs : Lasting Substs := by
  rintro p q s s' h ⟨hwithin, hrenamed⟩
  refine ⟨hwithin.mono h.known, fun v => ?_⟩
  by_cases hv : p.known v
  · rw [h.rename v hv, hrenamed]
    exact Ty.rename_congr fun w hw => (h.rename w (hwithin.image hv hw)).symm
  · obtain ⟨u, hu, heq⟩ := exists_unknown h hv
    rw [← heq, hrenamed, hwithin.image_eq hu, hwithin.image_eq hv, Ty.rename_var, Ty.rename_var,
      heq]

namespace Substs

variable {s s' r r' : Subst} {t t' : Ty}

theorem empty : p.Substs .empty .empty := ⟨.empty, .empty⟩

theorem apply (h : p.Substs s s') (ht : p.Types t t') : p.Types (s.apply t) (s'.apply t') := by
  obtain ⟨hover, rfl⟩ := ht
  exact ⟨h.within.apply hover, h.renamed.apply t⟩

theorem compose (hr : p.Substs r r') (hs : p.Substs s s') :
    p.Substs (r.compose s) (r'.compose s') :=
  ⟨hr.within.compose hs.within, hr.renamed.compose hs.renamed⟩

theorem reconcile (h : p.Substs s s') {u u' : Ty} (ht : p.Types t t') (hu : p.Types u u') :
    p.Substs (s.reconcile t u) (s'.reconcile t' u') := by
  obtain ⟨ht, rfl⟩ := ht
  obtain ⟨hu, rfl⟩ := hu
  exact ⟨h.within.reconcile ht hu, h.renamed.reconcile t u⟩

end Substs

/-- Unifying paired types. -/
theorem Types.unify {t t' u u' : Ty} (ht : p.Types t t') (hu : p.Types u u') :
    Outcomes p.Substs (fun e e' => e' = e.rename p.rename) (unify t u) (Plugboard.unify t' u') := by
  obtain ⟨ht, rfl⟩ := ht
  obtain ⟨hu, rfl⟩ := hu
  have hunify := unify_rename p.rename t u
  generalize houtcome : Plugboard.unify t u = outcome at hunify ⊢
  generalize Plugboard.unify (t.rename p.rename) (u.rename p.rename) = outcome' at hunify ⊢
  cases hunify with
  | error he => exact .error he
  | ok h =>
      refine .ok ⟨(unify_eliminates houtcome).within fun v hv => ?_, h⟩
      exact (List.mem_append.1 hv).elim (ht v) (hu v)

/-- The scheme on the right is the one on the left renamed, its quantified names included, which may
be listed in another order. -/
structure Renames (p : Pairing) (scheme scheme' : Scheme) : Prop where
  body : p.Types scheme.body scheme'.body
  vars : ∀ v, p.rename v ∈ scheme'.vars ↔ v ∈ scheme.vars
  known : ∀ v ∈ scheme.vars, p.known v

theorem lasting_renames : Lasting Renames := by
  rintro p q scheme scheme' h ⟨hbody, hvars, hknown⟩
  refine ⟨lasting_types h hbody, fun v => ?_, fun v hv => h.known v (hknown v hv)⟩
  by_cases hv : p.known v
  · rw [h.rename v hv]
    exact hvars v
  · obtain ⟨u, hu, heq⟩ := exists_unknown h hv
    rw [← heq, hvars]
    exact ⟨fun hmem => (hu (hknown u hmem)).elim, fun hmem => (hv (hknown v hmem)).elim⟩

theorem Renames.closed {t t' : Ty} (h : p.Types t t') : p.Renames (.closed t) (.closed t') := by
  have hmem : ∀ (v : String) (t : Ty), v ∈ (Scheme.closed t).vars ↔ v ∈ t.vars := by
    simp [Scheme.closed, Ty.freeVars]
  refine ⟨h, fun v => ?_, fun v hv => h.known v ((hmem v t).1 hv)⟩
  rw [hmem, hmem, h.eq]
  exact Ty.apply_mem_vars_rename

/-- A scheme without free variables is the same on both sides. Any other one is renamed. -/
inductive Schemes (p : Pairing) : Scheme → Scheme → Prop
  | closed {scheme : Scheme} (h : scheme.Closed) : Schemes p scheme scheme
  | renamed {scheme scheme' : Scheme} (h : p.Renames scheme scheme') : Schemes p scheme scheme'

theorem lasting_schemes : Lasting Schemes := by
  intro p q scheme scheme' h hschemes
  cases hschemes with
  | closed hclosed => exact .closed hclosed
  | renamed hrenames => exact .renamed (lasting_renames h hrenames)

namespace Schemes

variable {scheme scheme' : Scheme} {s s' : Subst}

theorem mono {t t' : Ty} (h : p.Types t t') : p.Schemes (.mono t) (.mono t') :=
  .renamed ⟨h, by simp [Scheme.mono], by simp [Scheme.mono]⟩

theorem free_iff (h : p.Schemes scheme scheme') (v : String) :
    scheme'.Free (p.rename v) ↔ scheme.Free v := by
  cases h with
  | closed hclosed => exact ⟨fun hv => (hclosed _ hv).elim, fun hv => (hclosed _ hv).elim⟩
  | renamed h => rw [Scheme.Free, Scheme.Free, h.body.eq, Ty.apply_mem_vars_rename, h.vars]

theorem applyScheme (h : p.Schemes scheme scheme') (hs : p.Substs s s') :
    p.Schemes (s.applyScheme scheme) (s'.applyScheme scheme') := by
  cases h with
  | closed hclosed =>
      rw [Subst.applyScheme_of_closed s hclosed, Subst.applyScheme_of_closed s' hclosed]
      exact .closed hclosed
  | renamed h =>
      have hwithin : (s.without scheme.vars).Within p.known := by
        intro v
        rw [Subst.image_without]
        by_cases hv : v ∈ scheme.vars
        · exact .inl (if_pos hv)
        · rw [if_neg hv]
          exact hs.within v
      have hwithout : p.Substs (s.without scheme.vars) (s'.without scheme'.vars) :=
        ⟨hwithin, hs.renamed.without h.vars⟩
      exact .renamed ⟨hwithout.apply h.body, h.vars, h.known⟩

/-- A renaming of the whole scheme that is the pairing's own one where it is free. -/
theorem exists_perm (h : p.Schemes scheme scheme') :
    ∃ π : Perm String, scheme'.body = scheme.body.rename π ∧
      (∀ v, π v ∈ scheme'.vars ↔ v ∈ scheme.vars) ∧
      ∀ v, scheme.Free v → p.known v ∧ p.rename v = π v := by
  cases h with
  | closed hclosed =>
      exact ⟨1, (Ty.bind_var _).symm, fun _ => Iff.rfl, fun v hv => (hclosed v hv).elim⟩
  | renamed h =>
      exact ⟨p.rename, h.body.eq, h.vars, fun v hv => ⟨h.body.known v hv.1, rfl⟩⟩

/-- Instances of paired schemes are paired, whatever the order in which their variables have been
handed out. -/
theorem instantiate (h : p.Schemes scheme scheme') :
    ∃ q, p ≤ q ∧ q.left = (scheme.instantiate p.left).2 ∧
      q.right = (scheme'.instantiate p.right).2 ∧
      q.Types (scheme.instantiate p.left).1 (scheme'.instantiate p.right).1 := by
  obtain ⟨π, hbody, hvars, hfree⟩ := h.exists_perm
  have hleft := scheme.renewal_renews p.left_distinct
  have hright := scheme'.renewal_renews p.right_distinct
  have hfreshLeft : ∀ v, ∃ w, v ∈ scheme.vars → scheme.renewal p.left v = .var w ∧
      ¬ p.left.isUsed w ∧ (scheme.instantiate p.left).2.isUsed w := by
    intro v
    by_cases hv : v ∈ scheme.vars
    · obtain ⟨w, hw, hunused, hused⟩ := hleft.fresh v hv
      exact ⟨w, fun _ => ⟨hw, by simp [hunused], hused⟩⟩
    · exact ⟨v, fun hmem => (hv hmem).elim⟩
  have hfreshRight : ∀ v, ∃ w, v ∈ scheme.vars → scheme'.renewal p.right (π v) = .var w ∧
      ¬ p.right.isUsed w ∧ (scheme'.instantiate p.right).2.isUsed w := by
    intro v
    by_cases hv : v ∈ scheme.vars
    · obtain ⟨w, hw, hunused, hused⟩ := hright.fresh (π v) ((hvars v).2 hv)
      exact ⟨w, fun _ => ⟨hw, by simp [hunused], hused⟩⟩
    · exact ⟨v, fun hmem => (hv hmem).elim⟩
  choose name hname using hfreshLeft
  choose name' hname' using hfreshRight
  have hfst : ((scheme.vars.dedup.map fun v => (name v, name' v)).map Prod.fst).Nodup := by
    rw [List.map_map]
    refine (List.nodup_map_iff_inj_on scheme.vars.nodup_dedup).2 fun v hv w hw heq => ?_
    rw [List.mem_dedup] at hv hw
    refine hleft.injective v hv w hw ?_
    rw [(hname v hv).1, (hname w hw).1]
    exact congrArg Ty.var heq
  have hsnd : ((scheme.vars.dedup.map fun v => (name v, name' v)).map Prod.snd).Nodup := by
    rw [List.map_map]
    refine (List.nodup_map_iff_inj_on scheme.vars.nodup_dedup).2 fun v hv w hw heq => ?_
    rw [List.mem_dedup] at hv hw
    refine π.injective (hright.injective _ ((hvars v).2 hv) _ ((hvars w).2 hw) ?_)
    rw [(hname' v hv).1, (hname' w hw).1]
    exact congrArg Ty.var heq
  obtain ⟨q, hle, hql, hqr, hpairs⟩ := p.exists_extension _ hfst hsnd hleft.distinct
    hright.distinct hleft.keeps hright.keeps fun n hn => by
      obtain ⟨v, hv, rfl⟩ := List.mem_map.1 hn
      rw [List.mem_dedup] at hv
      exact ⟨(hname v hv).2, (hname' v hv).2⟩
  refine ⟨q, hle, hql, hqr, ?_⟩
  have hpair : ∀ v ∈ scheme.vars, q.known (name v) ∧ q.rename (name v) = name' v := fun v hv =>
    hpairs _ (List.mem_map_of_mem (List.mem_dedup.2 hv))
  have himage : ∀ v ∈ scheme.body.vars,
      q.Types (scheme.renewal p.left v) (scheme'.renewal p.right (π v)) := by
    intro v hv
    by_cases hmem : v ∈ scheme.vars
    · rw [(hname v hmem).1, (hname' v hmem).1]
      exact .var (hpair v hmem).1 (hpair v hmem).2
    · obtain ⟨hknown, heq⟩ := hfree v ⟨hv, hmem⟩
      rw [hleft.away v hmem, hright.away _ fun h => hmem ((hvars v).1 h)]
      exact .var (hle.known v hknown) ((hle.rename v hknown).trans heq)
  rw [Scheme.instantiate_fst, Scheme.instantiate_fst, hbody]
  constructor
  · intro w hw
    obtain ⟨v, hv, hw⟩ := Ty.mem_vars_bind.1 hw
    exact (himage v hv).known w hw
  · rw [Ty.bind_rename, Ty.rename_bind]
    exact Ty.bind_congr fun v hv => (himage v hv).eq

end Schemes

/-- The names that both sides hand out next belong together. -/
theorem exists_fresh (p : Pairing) :
    ∃ q, p ≤ q ∧ q.left = p.left.allocate.2 ∧ q.right = p.right.allocate.2 ∧
      q.Types (.var p.left.allocate.1) (.var p.right.allocate.1) := by
  have hleft := VarPool.allocate_issues p.left_distinct
  have hright := VarPool.allocate_issues p.right_distinct
  obtain ⟨q, hle, hql, hqr, hpair⟩ := p.exists_extension
    [(p.left.allocate.1, p.right.allocate.1)] (List.nodup_singleton _)
    (List.nodup_singleton _) hleft.distinct hright.distinct (fun _ => hleft.keeps)
    (fun _ => hright.keeps) (by simp [hleft.fresh, hright.fresh, hleft.used, hright.used])
  obtain ⟨hknown, heq⟩ := hpair _ (List.mem_singleton_self _)
  exact ⟨q, hle, hql, hqr, .var hknown heq⟩

/-- The environments bind the same names, to paired schemes. -/
abbrev Envs (p : Pairing) : Env → Env → Prop := Env.Relates p.Schemes

theorem lasting_envs : Lasting Envs := fun hle h =>
  Env.Relates.imp h fun _ _ _ _ => lasting_schemes hle

namespace Envs

variable {env env' : Env} {s s' : Subst} {t t' : Ty}

theorem of_closed (h : env.Closed) : p.Envs env env := by
  intro name
  cases hlookup : env.lookup name with
  | none => exact .none
  | some scheme => exact .some (.closed (h name scheme hlookup))

theorem erase (h : p.Envs env env') (name : String) :
    p.Envs (env.erase name) (env'.erase name) := by
  intro name'
  rw [Env.lookup_erase, Env.lookup_erase]
  by_cases hname : name = name'
  · rw [if_pos hname, if_pos hname]
    exact .none
  · rw [if_neg hname, if_neg hname]
    exact h name'

theorem apply (h : p.Envs env env') (hs : p.Substs s s') :
    p.Envs (env.apply s) (env'.apply s') := by
  intro name
  rw [Env.lookup_apply, Env.lookup_apply]
  have hname := h name
  generalize env.lookup name = found at hname ⊢
  generalize env'.lookup name = found' at hname ⊢
  cases hname with
  | none => exact .none
  | some hscheme => exact .some (hscheme.applyScheme hs)

theorem free_iff (h : p.Envs env env') (v : String) : env'.Free (p.rename v) ↔ env.Free v := by
  constructor
  · rintro ⟨name, scheme', hlookup, hv⟩
    obtain ⟨scheme, hscheme, hpair⟩ := Env.Relates.right h hlookup
    exact ⟨name, scheme, hscheme, (hpair.free_iff v).1 hv⟩
  · rintro ⟨name, scheme, hlookup, hv⟩
    obtain ⟨scheme', hscheme, hpair⟩ := Env.Relates.left h hlookup
    exact ⟨name, scheme', hscheme, (hpair.free_iff v).2 hv⟩

theorem generalize (h : p.Envs env env') (ht : p.Types t t') :
    p.Renames (env.generalize t) (env'.generalize t') := by
  refine ⟨ht, fun v => ?_, fun v hv => ht.known v (Env.mem_vars_generalize.1 hv).1⟩
  rw [Env.mem_vars_generalize, Env.mem_vars_generalize, h.free_iff, ht.eq,
    Ty.apply_mem_vars_rename]

end Envs

end Pairing

end Plugboard
