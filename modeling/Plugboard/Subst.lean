import Plugboard.Scheme

/-!
# Substitutions

A substitution is a finite map from type variables to types. Applying it
replaces each variable once and leaves the images alone, so chained bindings
have to be composed first.
-/

namespace Plugboard

structure Subst where
  bindings : Std.ExtTreeMap String Ty
  deriving DecidableEq

namespace Subst

def empty : Subst := ⟨∅⟩

instance : EmptyCollection Subst := ⟨empty⟩
instance : Inhabited Subst := ⟨empty⟩

def single (v : String) (t : Ty) : Subst := ⟨(∅ : Std.ExtTreeMap String Ty).insert v t⟩

/-- The bindings in a list; of two bindings of one name the later holds. -/
def ofList (pairs : List (String × Ty)) : Subst := ⟨Std.ExtTreeMap.ofList pairs⟩

/-- The bindings in order of their names. -/
def toList (s : Subst) : List (String × Ty) := s.bindings.toList

def size (s : Subst) : Nat := s.bindings.size

/-- What a variable becomes: its image, or itself where there is none. -/
def image (s : Subst) (v : String) : Ty := s.bindings[v]?.getD (.var v)

def apply (s : Subst) (t : Ty) : Ty := t.bind s.image

/-- The substitution that applies `first` and then `second`. -/
def compose (second first : Subst) : Subst :=
  ⟨second.bindings ∪ first.bindings.map fun _ t => second.apply t⟩

def without (s : Subst) (names : List String) : Subst :=
  ⟨s.bindings.filter fun v _ => ! names.contains v⟩

/-- Acts on the free variables of a scheme only. -/
def applyScheme (s : Subst) (scheme : Scheme) : Scheme :=
  ⟨scheme.vars, (s.without scheme.vars).apply scheme.body⟩

def render (s : Subst) : String :=
  "[" ++ ", ".intercalate (s.toList.map fun (v, t) => s!"{v} := {t}") ++ "]"

instance : ToString Subst := ⟨render⟩

@[ext]
theorem ext {s r : Subst} (h : ∀ v : String, s.bindings[v]? = r.bindings[v]?) : s = r := by
  cases s
  cases r
  congr 1
  exact Std.ExtTreeMap.ext_getElem? h

@[simp]
theorem image_empty (v : String) : empty.image v = .var v := by
  simp [empty, image]

@[simp]
theorem image_single (v w : String) (t : Ty) :
    (single v t).image w = if v = w then t else .var w := by
  by_cases h : v = w <;> simp [single, image, h]

@[simp]
theorem apply_empty (t : Ty) : empty.apply t = t := by
  have : empty.image = Ty.var := funext image_empty
  rw [apply, this, Ty.bind_var]

theorem getElem?_compose (second first : Subst) (v : String) :
    (second.compose first).bindings[v]? =
      (first.bindings[v]?.map second.apply).or second.bindings[v]? := by
  simp [compose, Std.ExtTreeMap.getElem?_union]

theorem image_compose (second first : Subst) (v : String) :
    (second.compose first).image v = second.apply (first.image v) := by
  simp only [image, getElem?_compose]
  cases first.bindings[v]? <;> simp [apply, Ty.bind, image]

theorem apply_compose (second first : Subst) (t : Ty) :
    (second.compose first).apply t = second.apply (first.apply t) := by
  rw [apply, apply, apply, Ty.bind_bind]
  exact Ty.bind_congr fun v _ => image_compose second first v

theorem compose_assoc (s₁ s₂ s₃ : Subst) :
    s₁.compose (s₂.compose s₃) = (s₁.compose s₂).compose s₃ := by
  ext v : 1
  simp only [getElem?_compose]
  cases s₃.bindings[v]? <;> simp [apply_compose]

theorem compose_empty (s : Subst) : s.compose empty = s := by
  ext v : 1
  rw [getElem?_compose]
  simp [empty]

theorem empty_compose (s : Subst) : empty.compose s = s := by
  ext v : 1
  rw [getElem?_compose]
  have hnone : empty.bindings[v]? = none := by simp [empty]
  cases s.bindings[v]? <;> simp [hnone]

end Subst

end Plugboard
