import Std.Data.ExtTreeMap
import Std.Data.ExtTreeSet

/-!
# Types

A type is a variable, a named constructor applied to argument types, or a
function. Constructors without arguments are the base types. The variables of a
type are available both as a list in order of occurrence and as an ordered set.
-/

namespace Plugboard

/-- A set of type variable names in code-point order. -/
abbrev NameSet := Std.ExtTreeSet String

inductive Ty where
  | var (name : String)
  | con (name : String) (args : List Ty)
  | fn (arg result : Ty)
  deriving Inhabited

namespace Ty

/-- Induction in which a constructor's arguments are covered one by one. -/
@[elab_as_elim, induction_eliminator]
theorem ind {motive : Ty → Prop} (var : ∀ name, motive (.var name))
    (con : ∀ name args, (∀ t ∈ args, motive t) → motive (.con name args))
    (fn : ∀ arg result, motive arg → motive result → motive (.fn arg result)) (t : Ty) :
    motive t := by
  refine @Ty.rec motive (fun ts => ∀ t ∈ ts, motive t) var con fn ?_ ?_ t
  · intro t h
    cases h
  · intro t ts ht hts u hu
    cases hu with
    | head => exact ht
    | tail _ hu => exact hts u hu

mutual

/-- Structural equality test. -/
def same : Ty → Ty → Bool
  | .var v, .var w => v == w
  | .con c ts, .con d us => c == d && sameAll ts us
  | .fn a r, .fn b s => same a b && same r s
  | _, _ => false

def sameAll : List Ty → List Ty → Bool
  | [], [] => true
  | t :: ts, u :: us => same t u && sameAll ts us
  | _, _ => false

end

mutual

theorem eq_of_same : ∀ {t u : Ty}, same t u = true → t = u
  | .var v, .var w, h => by simpa [same] using h
  | .con c ts, .con d us, h => by
      simp only [same, Bool.and_eq_true, beq_iff_eq] at h
      rw [h.1, eq_of_sameAll h.2]
  | .fn a r, .fn b s, h => by
      simp only [same, Bool.and_eq_true] at h
      rw [eq_of_same h.1, eq_of_same h.2]
  | .var _, .con _ _, h | .var _, .fn _ _, h | .con _ _, .var _, h
  | .con _ _, .fn _ _, h | .fn _ _, .var _, h | .fn _ _, .con _ _, h => by simp [same] at h

theorem eq_of_sameAll : ∀ {ts us : List Ty}, sameAll ts us = true → ts = us
  | [], [], _ => rfl
  | t :: ts, u :: us, h => by
      simp only [sameAll, Bool.and_eq_true] at h
      rw [eq_of_same h.1, eq_of_sameAll h.2]
  | [], _ :: _, h | _ :: _, [], h => by simp [sameAll] at h

end

mutual

theorem same_refl : ∀ t : Ty, same t t = true
  | .var _ => by simp [same]
  | .con _ ts => by simp [same, sameAll_refl ts]
  | .fn a r => by simp [same, same_refl a, same_refl r]

theorem sameAll_refl : ∀ ts : List Ty, sameAll ts ts = true
  | [] => rfl
  | t :: ts => by simp [sameAll, same_refl t, sameAll_refl ts]

end

instance : DecidableEq Ty := fun t u =>
  if h : same t u = true then isTrue (eq_of_same h)
  else isFalse fun e => h (e ▸ same_refl t)

/-- A base type: a constructor without arguments. -/
def base (name : String) : Ty := .con name []

def number : Ty := base "Number"
def bool : Ty := base "Bool"
def text : Ty := base "Text"
def list (element : Ty) : Ty := .con "list" [element]
def pair (first second : Ty) : Ty := .con "pair" [first, second]

/-- The right-nested function type from `args` to `result`. -/
def curried (args : List Ty) (result : Ty) : Ty := args.foldr .fn result

def isVar : Ty → Bool
  | .var _ => true
  | _ => false

def isCon : Ty → Bool
  | .con _ _ => true
  | _ => false

def isFn : Ty → Bool
  | .fn _ _ => true
  | _ => false

/-- Splits off at most `limit` arguments of a curried function type. -/
def uncurry : Nat → Ty → List Ty × Ty
  | limit + 1, .fn arg result =>
      let (args, rest) := uncurry limit result
      (arg :: args, rest)
  | _, t => ([], t)

/-- Number of arrows along the result spine. -/
def arity : Ty → Nat
  | .fn _ result => result.arity + 1
  | _ => 0

mutual

/-- The variables of a type in order of occurrence, repetitions included. -/
def vars : Ty → List String
  | .var v => [v]
  | .con _ ts => varsAll ts
  | .fn a r => a.vars ++ r.vars

def varsAll : List Ty → List String
  | [] => []
  | t :: ts => t.vars ++ varsAll ts

end

/-- The variables of a type as an ordered set. -/
def freeVars (t : Ty) : NameSet := Std.ExtTreeSet.ofList t.vars

mutual

/-- Number of nodes. -/
def size : Ty → Nat
  | .var _ => 1
  | .con _ ts => sizeAll ts + 1
  | .fn a r => a.size + r.size + 1

def sizeAll : List Ty → Nat
  | [] => 0
  | t :: ts => t.size + sizeAll ts

end

mutual

/-- Replaces every variable by its image under `f`, in a single pass. -/
def bind (f : String → Ty) : Ty → Ty
  | .var v => f v
  | .con c ts => .con c (bindAll f ts)
  | .fn a r => .fn (a.bind f) (r.bind f)

def bindAll (f : String → Ty) : List Ty → List Ty
  | [] => []
  | t :: ts => t.bind f :: bindAll f ts

end

theorem varsAll_eq_flatMap (ts : List Ty) : varsAll ts = ts.flatMap vars := by
  induction ts with
  | nil => rfl
  | cons t ts ih => simp [varsAll, ih]

theorem bindAll_eq_map (f : String → Ty) (ts : List Ty) : bindAll f ts = ts.map (bind f) := by
  induction ts with
  | nil => rfl
  | cons t ts ih => simp [bindAll, ih]

theorem mem_varsAll {v : String} {ts : List Ty} :
    v ∈ varsAll ts ↔ ∃ t ∈ ts, v ∈ t.vars := by
  simp [varsAll_eq_flatMap]

theorem varsAll_append (ts us : List Ty) : varsAll (ts ++ us) = varsAll ts ++ varsAll us := by
  simp [varsAll_eq_flatMap]

theorem bind_var (t : Ty) : t.bind .var = t := by
  induction t with
  | var v => rfl
  | con c ts ih =>
      simp only [bind, bindAll_eq_map]
      congr 1
      exact (List.map_congr_left ih).trans (List.map_id' ts)
  | fn a r iha ihr => simp [bind, iha, ihr]

theorem bind_bind (f g : String → Ty) (t : Ty) :
    (t.bind f).bind g = t.bind fun v => (f v).bind g := by
  induction t with
  | var v => rfl
  | con c ts ih =>
      simp only [bind, bindAll_eq_map, List.map_map]
      congr 1
      exact List.map_congr_left ih
  | fn a r iha ihr => simp [bind, iha, ihr]

theorem bind_congr {f g : String → Ty} {t : Ty} (h : ∀ v ∈ t.vars, f v = g v) :
    t.bind f = t.bind g := by
  induction t with
  | var v => exact h v (by simp [vars])
  | con c ts ih =>
      simp only [bind, bindAll_eq_map]
      congr 1
      exact List.map_congr_left fun t ht => ih t ht fun v hv =>
        h v (by simpa [vars, mem_varsAll] using ⟨t, ht, hv⟩)
  | fn a r iha ihr =>
      simp only [bind]
      rw [iha fun v hv => h v (by simp [vars, hv]), ihr fun v hv => h v (by simp [vars, hv])]

theorem mem_vars_bind {f : String → Ty} {t : Ty} {v : String} :
    v ∈ (t.bind f).vars ↔ ∃ w ∈ t.vars, v ∈ (f w).vars := by
  induction t with
  | var w => simp [bind, vars]
  | con c ts ih =>
      simp only [bind, bindAll_eq_map, vars, mem_varsAll, List.mem_map]
      constructor
      · rintro ⟨_, ⟨t, ht, rfl⟩, hv⟩
        obtain ⟨w, hw, hvw⟩ := (ih t ht).1 hv
        exact ⟨w, ⟨t, ht, hw⟩, hvw⟩
      · rintro ⟨w, ⟨t, ht, hw⟩, hvw⟩
        exact ⟨_, ⟨t, ht, rfl⟩, (ih t ht).2 ⟨w, hw, hvw⟩⟩
  | fn a r iha ihr =>
      simp only [bind, vars, List.mem_append, iha, ihr]
      constructor
      · rintro (⟨w, hw, hv⟩ | ⟨w, hw, hv⟩)
        · exact ⟨w, .inl hw, hv⟩
        · exact ⟨w, .inr hw, hv⟩
      · rintro ⟨w, hw | hw, hv⟩
        · exact .inl ⟨w, hw, hv⟩
        · exact .inr ⟨w, hw, hv⟩

end Ty

end Plugboard
