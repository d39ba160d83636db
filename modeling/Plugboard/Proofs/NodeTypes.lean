import Plugboard.Proofs.Idempotence
import Plugboard.Proofs.Typing

/-!
# The types of all nodes

A successful run notes a type for every tagged node. Under the final substitution these are the
types of one typing of the whole term: at every node the noted types fit together as the rules
ask for. The names that are bound within the term are not followed; of the others every use is
an instance of the scheme in the environment.
-/

namespace Plugboard

namespace Subst

def applyNotes (s : Subst) (notes : List (Tag × Ty)) : List (Tag × Ty) :=
  notes.map fun (tag, t) => (tag, s.apply t)

theorem applyNotes_append (s : Subst) (notes rest : List (Tag × Ty)) :
    s.applyNotes (notes ++ rest) = s.applyNotes notes ++ s.applyNotes rest :=
  List.map_append

theorem applyNotes_noted (s : Subst) (tag : Option Tag) (t : Ty) (notes : List (Tag × Ty)) :
    s.applyNotes (InferM.noted tag t notes) =
      InferM.noted tag (s.apply t) (s.applyNotes notes) := by
  cases tag <;> rfl

end Subst

/-- A scheme that is closed or monomorphic: a substitution never captures anything in it. -/
def Scheme.Plain (scheme : Scheme) : Prop := scheme.Closed ∨ scheme.vars = []

namespace Scheme.Plain

variable {scheme : Scheme} {s r : Subst} {t : Ty}

theorem avoids (h : scheme.Plain) (s : Subst) : s.Avoids scheme := by
  intro v hv w _ hw
  rcases h with hclosed | hmono
  · exact hclosed v hv
  · rw [hmono] at hw
    exact List.not_mem_nil hw

theorem apply (h : scheme.Plain) (s : Subst) : (s.applyScheme scheme).Plain := by
  rcases h with hclosed | hmono
  · rw [s.applyScheme_of_closed hclosed]
    exact .inl hclosed
  · exact .inr hmono

theorem instance_apply (h : scheme.Plain) (s : Subst) (ht : scheme.Instance t) :
    (s.applyScheme scheme).Instance (s.apply t) := by
  obtain ⟨f, hf, rfl⟩ := ht
  rw [Instance, Subst.instanceUnder_applyScheme (h.avoids s), Subst.andThen_var]
  refine ⟨fun v => (f v).bind s.image, fun v hv => ?_, ?_⟩
  · exact congrArg (Ty.bind s.image) (hf v hv)
  · exact (Ty.bind_bind ..).symm

theorem apply_apply (h : scheme.Plain) (hr : r.Absorbs s) :
    r.applyScheme (s.applyScheme scheme) = r.applyScheme scheme := by
  rcases h with hclosed | hmono
  · rw [s.applyScheme_of_closed hclosed]
  · obtain ⟨vars, body⟩ := scheme
    obtain rfl : vars = [] := hmono
    change r.applyScheme (s.applyScheme (.mono body)) = r.applyScheme (.mono body)
    rw [Subst.applyScheme_mono, Subst.applyScheme_mono, Subst.applyScheme_mono, hr.apply]

end Scheme.Plain

/-- What is known of an environment: names that are bound to plain schemes in it. The others are
bound within a term. -/
structure Env.Tracks (known : Env) (bound : String → Prop) (env : Env) : Prop where
  lookup : ∀ {name scheme}, known.lookup name = some scheme → env.lookup name = some scheme
  plain : ∀ {name scheme}, known.lookup name = some scheme → scheme.Plain
  covers : ∀ {name scheme}, env.lookup name = some scheme →
    (∃ scheme', known.lookup name = some scheme') ∨ bound name
  apart : ∀ {name}, bound name → known.lookup name = none

namespace Env.Tracks

variable {known env : Env} {bound : String → Prop}

theorem insert (h : known.Tracks bound env) {name : String} (hname : bound name)
    (scheme : Scheme) : known.Tracks bound (env.insert name scheme) where
  lookup {name' scheme'} hlookup := by
    rw [lookup_insert, if_neg, h.lookup hlookup]
    rintro rfl
    rw [h.apart hname] at hlookup
    cases hlookup
  plain := h.plain
  covers {name' scheme'} hlookup := by
    rw [lookup_insert] at hlookup
    split at hlookup
    · rename_i heq
      exact .inr (heq ▸ hname)
    · exact h.covers hlookup
  apart := h.apart

theorem erase (h : known.Tracks bound env) {name : String} (hname : bound name) :
    known.Tracks bound (env.erase name) where
  lookup {name' scheme'} hlookup := by
    rw [lookup_erase, if_neg, h.lookup hlookup]
    rintro rfl
    rw [h.apart hname] at hlookup
    cases hlookup
  plain := h.plain
  covers {name' scheme'} hlookup := by
    rw [lookup_erase] at hlookup
    split at hlookup
    · cases hlookup
    · exact h.covers hlookup
  apart := h.apart

theorem apply (h : known.Tracks bound env) (s : Subst) :
    (known.apply s).Tracks bound (env.apply s) where
  lookup hlookup := by
    rw [lookup_apply, Option.map_eq_some_iff] at hlookup ⊢
    obtain ⟨scheme, hlookup, heq⟩ := hlookup
    exact ⟨scheme, h.lookup hlookup, heq⟩
  plain hlookup := by
    rw [lookup_apply, Option.map_eq_some_iff] at hlookup
    obtain ⟨scheme, hlookup, rfl⟩ := hlookup
    exact (h.plain hlookup).apply s
  covers hlookup := by
    rw [lookup_apply, Option.map_eq_some_iff] at hlookup
    obtain ⟨scheme, hlookup, -⟩ := hlookup
    refine (h.covers hlookup).imp_left fun ⟨scheme', hscheme'⟩ => ⟨s.applyScheme scheme', ?_⟩
    rw [lookup_apply, hscheme', Option.map_some]
  apart hname := by rw [lookup_apply, h.apart hname, Option.map_none]

theorem define (h : known.Tracks bound env) {name : String} (hname : bound name) (s : Subst)
    (t : Ty) : (known.apply s).Tracks bound (env.define name s t) :=
  ((h.erase hname).apply s).insert hname _

theorem apply_apply (h : known.Tracks bound env) {r s : Subst} (hr : r.Absorbs s) :
    (known.apply s).apply r = known.apply r := by
  refine ext_lookup fun name => ?_
  rw [lookup_apply, lookup_apply, lookup_apply]
  cases hlookup : known.lookup name with
  | none => rfl
  | some scheme => exact congrArg some ((h.plain hlookup).apply_apply hr)

end Env.Tracks

namespace Term

open InferM Subst

/-- All names that are bound in a term satisfy a predicate. -/
def BindersIn (bound : String → Prop) : Term → Prop
  | .var _ _ => True
  | .lit _ _ => True
  | .app func arg _ => func.BindersIn bound ∧ arg.BindersIn bound
  | .lam param body _ => bound param ∧ body.BindersIn bound
  | .letIn name value body _ => bound name ∧ value.BindersIn bound ∧ body.BindersIn bound

/-- A term has a type, and its tagged nodes have those of the notes. -/
inductive Noted (env : Env) (bound : String → Prop) : Term → Ty → List (Tag × Ty) → Prop
  | var {name : String} {scheme : Scheme} {t : Ty} (tag : Option Tag)
      (hlookup : env.lookup name = some scheme) (hinst : scheme.Instance t) :
      Noted env bound (.var name tag) t (noted tag t [])
  | bound {name : String} (t : Ty) (tag : Option Tag) (hname : bound name) :
      Noted env bound (.var name tag) t (noted tag t [])
  | lit (t : Ty) (tag : Option Tag) : Noted env bound (.lit t tag) t (noted tag t [])
  | lam {param : String} {body : Term} {t : Ty} {notes : List (Tag × Ty)} (a : Ty)
      (tag : Option Tag) (hbody : Noted env bound body t notes) :
      Noted env bound (.lam param body tag) (.fn a t) (noted tag (.fn a t) notes)
  | app {func arg : Term} {a t : Ty} {notes₁ notes₂ : List (Tag × Ty)} (tag : Option Tag)
      (hfunc : Noted env bound func (.fn a t) notes₁) (harg : Noted env bound arg a notes₂) :
      Noted env bound (.app func arg tag) t (noted tag t (notes₂ ++ notes₁))
  | letIn {name : String} {value body : Term} {u t : Ty} {notes₁ notes₂ : List (Tag × Ty)}
      (tag : Option Tag) (hvalue : Noted env bound value u notes₁)
      (hbody : Noted env bound body t notes₂) :
      Noted env bound (.letIn name value body tag) t (noted tag t (notes₂ ++ notes₁))

/-- The notes of a run are a typing under every substitution that absorbs what it has found. -/
theorem exists_noted {known env : Env} {bound : String → Prop} {e : Term} {st st' : InferState}
    {s : Subst} {t : Ty} (hpool : st.pool.Distinct) (hguard : env.Guarded st.pool)
    (hlits : e.LitsGround) (hbinders : e.BindersIn bound) (htracks : known.Tracks bound env)
    (hrun : (e.infer env).run st = (.ok (s, t), st')) :
    ∃ notes, st'.notes = notes ++ st.notes ∧ ∀ r : Subst, r.Absorbs s →
      e.Noted (known.apply r) bound (r.apply t) (r.applyNotes notes) := by
  induction e generalizing known env st st' s t with
  | var name tag =>
      obtain ⟨scheme, hlookup, rfl, rfl, rfl⟩ := run_infer_var.1 hrun
      refine ⟨noted tag (scheme.instantiate st.pool).1 [], noted_append _ _ [] _, fun r _ => ?_⟩
      rw [Subst.applyNotes_noted]
      rcases htracks.covers hlookup with ⟨scheme', hknown⟩ | hname
      · obtain rfl := Option.some.inj (hlookup.symm.trans (htracks.lookup hknown))
        have hplain := htracks.plain hknown
        refine .var tag ?_ (hplain.instance_apply r ?_)
        · rw [Env.lookup_apply, hknown, Option.map_some]
        · have hrenews := scheme.renewal_renews hpool
          exact ⟨_, fun v hv => hrenews.away v hv.2, (scheme.instantiate_fst _).symm⟩
      · exact .bound _ tag hname
  | lit u tag =>
      obtain ⟨rfl, rfl, rfl⟩ := run_infer_lit.1 hrun
      refine ⟨noted tag t [], noted_append _ _ [] _, fun r _ => ?_⟩
      rw [Subst.applyNotes_noted]
      have hground : r.apply t = t := Ty.bind_of_ground hlits r.image
      rw [hground]
      exact .lit t tag
  | lam param body tag ih =>
      obtain ⟨u, mid, hbody, rfl, rfl⟩ := run_infer_lam.1 hrun
      have hissues := VarPool.allocate_issues hpool
      obtain ⟨notes, hnotes, htyped⟩ := @ih _ _ { st with pool := st.pool.allocate.2 }
        _ _ _ hissues.distinct (hguard.insert_mono hissues param) hlits hbinders.2
        (htracks.insert hbinders.1 _) hbody
      refine ⟨noted tag (.fn (s.image st.pool.allocate.1) u) notes, ?_, fun r hr => ?_⟩
      · rw [← noted_append, ← hnotes]
      · rw [Subst.applyNotes_noted]
        exact .lam _ tag (htyped r hr)
  | app func arg tag ihf iha =>
      obtain ⟨s₁, t₁, mid₁, s₂, t₂, mid₂, s₃, hfunc, harg, hunify, rfl, rfl, rfl⟩ :=
        run_infer_app.1 hrun
      have hfuncRun := infers_of_run hfunc
      have hargRun := infers_of_run harg
      have hconfined := hfuncRun.confined hpool hguard hlits.1
      have hguard₁ := hconfined.guarded_apply hguard
      obtain ⟨hs₁, ht₁⟩ := hfuncRun.idempotent hpool hguard hlits.1
      obtain ⟨hs₂, ht₂⟩ := hargRun.idempotent hconfined.distinct hguard₁ hlits.2
      obtain ⟨hfollows, hfollows'⟩ :=
        follows_app hpool hguard hlits hfuncRun hargRun hunify hs₁ ht₁ hs₂ ht₂
      obtain ⟨notes₁, hnotes₁, hfunc⟩ := ihf hpool hguard hlits.1 hbinders.1 htracks hfunc
      obtain ⟨notes₂, hnotes₂, harg⟩ :=
        iha hconfined.distinct hguard₁ hlits.2 hbinders.2 (htracks.apply s₁) harg
      refine ⟨noted tag (s₃.image mid₂.pool.allocate.1) (notes₂ ++ notes₁), ?_, fun r hr => ?_⟩
      · rw [← noted_append, List.append_assoc, ← hnotes₁, ← hnotes₂]
      · obtain ⟨hr₂₁, hr₃⟩ := hfollows'.absorbs (hfollows.idempotent hs₂ hs₁) hr
        obtain ⟨hr₁, hr₂⟩ := hfollows.absorbs hs₁ hr₂₁
        have harg := harg r hr₂
        rw [htracks.apply_apply hr₁] at harg
        have hfuncTy := apply_eq_fn_of_unify hunify hr₂ hr₃
        rw [Subst.applyNotes_noted, Subst.applyNotes_append]
        exact .app tag (hfuncTy ▸ hfunc r hr₁) harg
  | letIn name value body tag ihb ihe =>
      obtain ⟨s₁, t₁, mid₁, s₂, mid₂, hvalue, hbody, rfl, rfl⟩ := run_infer_letIn.1 hrun
      have hvalueRun := infers_of_run hvalue
      have hconfined := hvalueRun.confined hpool hguard hlits.1
      have hguard₁ := hconfined.guarded_define hguard name
      obtain ⟨hs₁, -⟩ := hvalueRun.idempotent hpool hguard hlits.1
      have hfollows := follows_letIn hpool hguard hlits hvalueRun (infers_of_run hbody) hs₁
      obtain ⟨notes₁, hnotes₁, hvalue⟩ := ihb hpool hguard hlits.1 hbinders.2.1 htracks hvalue
      obtain ⟨notes₂, hnotes₂, hbody⟩ := ihe hconfined.distinct hguard₁ hlits.2 hbinders.2.2
        (htracks.define hbinders.1 s₁ t₁) hbody
      refine ⟨noted tag t (notes₂ ++ notes₁), ?_, fun r hr => ?_⟩
      · rw [← noted_append, List.append_assoc, ← hnotes₁, ← hnotes₂]
      · obtain ⟨hr₁, hr₂⟩ := hfollows.absorbs hs₁ hr
        have hbody := hbody r hr₂
        rw [htracks.apply_apply hr₁] at hbody
        rw [Subst.applyNotes_noted, Subst.applyNotes_append]
        exact .letIn tag (hvalue r hr₁) hbody

end Term

end Plugboard
