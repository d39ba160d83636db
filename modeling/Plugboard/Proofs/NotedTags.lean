import Plugboard.Proofs.NotedTypes

/-!
# The notes that inference leaves behind

Whether inference succeeds or fails, all that it does to its state is to allocate and to note types
for the tags of the term that it has been given. So a type is noted for such a tag only, and the
notes that were there before are still there.
-/

namespace Plugboard

/-- `P` outlasts allocations, and notes for marked tags. -/
structure InferState.Stable (marked : Tag → Prop) (P : InferState → Prop) : Prop where
  pool : ∀ {st} pool, P st → P { st with pool }
  note : ∀ {st tag} t, marked tag → P st → P { st with notes := (tag, t) :: st.notes }

/-- Types have been noted for marked tags only. -/
def InferState.TagsIn (marked : Tag → Prop) (st : InferState) : Prop := ∀ n ∈ st.notes, marked n.1

variable {marked : Tag → Prop} {P : InferState → Prop}

namespace InferState

theorem stable_tagsIn (marked : Tag → Prop) : Stable marked (TagsIn marked) where
  pool _ := id
  note _ htag hst := List.forall_mem_cons.2 ⟨htag, hst⟩

theorem stable_suffix (old : List (Tag × Ty)) :
    Stable (fun _ => True) fun st => old <:+ st.notes where
  pool _ := id
  note _ _ hst := hst.trans (List.suffix_cons ..)

end InferState

namespace InferM

open InferState

theorem preserves_onPool {α : Type} (h : Stable marked P) (f : VarPool → α × VarPool) :
    Preserves P (onPool f) :=
  .modifyGet fun _ => h.pool _

theorem preserves_note (h : Stable marked P) {tag : Option Tag} (htag : Term.Marked marked tag)
    (t : Ty) : Preserves P (note tag t) := by
  cases tag with
  | none => exact .pure _
  | some tag => exact .modify fun _ => h.note t (htag tag rfl)

theorem preserves_unifyAt (tag : Option Tag) (a b : Ty) : Preserves P (unifyAt tag a b) := by
  rw [unifyAt]
  cases unify a b with
  | ok s => exact .pure s
  | error e => exact .throw _

/-- Of the notes that are resolved none are added or dropped. -/
theorem marked_of_resolve {s : Subst} {notes : List (Tag × Ty)}
    (hnotes : ∀ n ∈ notes, marked n.1) {tag : Tag} {t : Ty}
    (h : (resolve s notes)[tag]? = some t) : marked tag := by
  have hmem := mem_of_getElem?_ofList h
  simp only [List.mem_map, List.mem_reverse, Prod.mk.injEq, Prod.exists] at hmem
  obtain ⟨tag', t', hn, rfl, -⟩ := hmem
  exact hnotes _ hn

end InferM

namespace Term

open InferM InferState

theorem preserves_infer (h : Stable marked P) {env : Env} {e : Term} (he : e.TagsIn marked) :
    Preserves P (e.infer env) := by
  induction e generalizing env with
  | var name tag =>
      rw [infer]
      cases env.lookup name with
      | none => exact .throw _
      | some scheme =>
          exact .bind (preserves_onPool h _) fun _ => .bind (preserves_note h he _) fun _ => .pure _
  | lit t tag => exact .bind (preserves_note h he _) fun _ => .pure _
  | lam param body tag ih =>
      rw [infer]
      exact .bind (preserves_onPool h _) fun _ => .bind (ih he.2) fun _ =>
        .bind (preserves_note h he.1 _) fun _ => .pure _
  | app func arg tag ihf iha =>
      rw [infer]
      exact .bind (ihf he.2.1) fun _ => .bind (iha he.2.2) fun _ =>
        .bind (preserves_onPool h _) fun _ => .bind (preserves_unifyAt _ _ _) fun _ =>
        .bind (preserves_note h he.1 _) fun _ => .pure _
  | letIn name bound body tag ihb ihe =>
      rw [infer]
      exact .bind (ihb he.2.1) fun _ => .bind (ihe he.2.2) fun _ =>
        .bind (preserves_note h he.1 _) fun _ => .pure _

end Term

namespace Lowered

open InferM InferState

variable {env : Env} {l : Lowered}

theorem preserves_inferAs (h : Stable marked P) (hl : l.term.TagsIn marked) (block : BlockId)
    (expected : Ty) (before : Subst) : Preserves P (l.inferAs env block expected before) :=
  .bind (.mapM fun _ _ => .bind (preserves_onPool h _) fun _ => .pure _) fun _ =>
    .bind (Term.preserves_infer h hl) fun _ => .bind (preserves_unifyAt _ _ _) fun _ => .pure _

theorem preserves_inferSection (h : Stable marked P) (hl : l.term.TagsIn marked) :
    Preserves P (l.inferSection env) := by
  refine .bind (Term.preserves_infer h ?_) fun _ => .pure _
  exact (Term.structural_tagsIn marked (fun _ => True) fun _ => True).lamAll (fun _ _ => trivial) hl

theorem preserves_inference (h : Stable marked P) (hl : l.term.TagsIn marked) (root : BlockId)
    (expected : Option Ty) : Preserves P (l.inference env root expected) := by
  cases expected with
  | some t => exact l.preserves_inferAs h hl root t .empty
  | none => exact l.preserves_inferSection h hl

end Lowered

namespace FunctionGroup

open InferM InferState

variable {env : Env} {st : InferState}

theorem preserves_inferBody (h : Stable marked P) {m : Member}
    (hm : ∀ l, m.lowered = .ok l → l.term.TagsIn marked) (self : Ty) (s : Subst) :
    Preserves P (inferBody env m self s) := by
  rw [inferBody]
  cases hlowered : m.lowered with
  | ok l => exact l.preserves_inferAs h (hm l hlowered) _ _ _
  | error e => exact .throw _

theorem tagsIn_attempt {α : Type} {x : InferM α} (hx : Preserves (TagsIn marked) x)
    (hst : st.TagsIn marked) : ((attempt x).run st).2.TagsIn marked := by
  have hends := (hx st hst).state
  rw [run_attempt]
  generalize x.run st = out at hends ⊢
  rcases out with ⟨e | a, st'⟩
  · exact fun n hn => hends n (List.mem_of_mem_drop hn)
  · exact hends

theorem tagsIn_freshVars {α : Type} (xs : List α) (st : InferState) :
    ((xs.mapM fun _ => freshVar).run st).2.notes = st.notes := by
  induction xs generalizing st with
  | nil => rfl
  | cons x xs ih =>
      rw [List.mapM_cons]
      exact ih { st with pool := st.pool.allocate.2 }

theorem tagsIn_inferBodies {bodies : List (Member × Ty)}
    (hbodies : ∀ body ∈ bodies, ∀ l, body.1.lowered = .ok l → l.term.TagsIn marked) {s : Subst}
    (hst : st.TagsIn marked) : ((inferBodies env bodies s).run st).2.TagsIn marked := by
  induction bodies generalizing st s with
  | nil => exact hst
  | cons body bodies ih =>
      obtain ⟨m, self⟩ := body
      rw [List.forall_mem_cons] at hbodies
      have hbody : Preserves (TagsIn marked) (inferBody env m self s) :=
        preserves_inferBody (stable_tagsIn marked) hbodies.1 self s
      have hattempt := tagsIn_attempt hbody hst
      rw [inferBodies, StateT.run_bind]
      rcases hrun : (attempt (inferBody env m self s)).run st with ⟨e | s', st'⟩ <;>
        rw [hrun] at hattempt
      · exact ih hbodies.2 hattempt
      · exact ih hbodies.2 hattempt

/-- The types that a group is found to have are those of tags in its bodies. -/
theorem marked_of_infer {members : List Member} {pool : VarPool}
    (hmembers : ∀ m ∈ members, ∀ l, m.lowered = .ok l → l.term.TagsIn marked) {tag : Tag} {t : Ty}
    (h : ((infer env members).run (ofPool pool)).1.types[tag]? = some t) : marked tag := by
  rw [run_infer_eq] at h
  have hfresh := tagsIn_freshVars members (ofPool pool)
  generalize (members.mapM fun _ => freshVar).run (ofPool pool) = r₁ at h hfresh
  have hstart : r₁.2.TagsIn marked := fun n hn => by
    rw [hfresh] at hn
    exact (List.not_mem_nil hn).elim
  refine marked_of_resolve (tagsIn_inferBodies (fun body hbody => ?_) hstart) h
  exact hmembers body.1 (List.of_mem_zip hbody).1

end FunctionGroup

end Plugboard
