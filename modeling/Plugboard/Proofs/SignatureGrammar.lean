import Plugboard.Ty.Signature

/-!
# The grammar of written types

What the reader of types accepts, as derivations of its grammar. A derivation tells which type the
front of a token list stands for and what is left; the reader finds exactly the derivations. From
them it can be seen which types can come out at all, and that the tokens of such a type are read
as this type.
-/

namespace Plugboard

namespace Signature

/-- A letter or an underscore, then letters, digits and underscores. -/
def IsIdent (name : String) : Prop :=
  ∃ c cs, name.toList = c :: cs ∧ isInitial c = true ∧ ∀ d ∈ cs, isFollowing d = true

/-- What a bare identifier stands for. -/
def bare (name : String) : Ty := if name.front.isLower then .var name else .base name

mutual

/-- Up to `rest`, the tokens are a type. -/
inductive ReadsType : List Token → Ty → List Token → Prop where
  | atom {tokens rest : List Token} {t : Ty} (h : ReadsAtom tokens t rest)
      (hend : rest.head? ≠ some .arrow) : ReadsType tokens t rest
  | arrow {tokens mid rest : List Token} {a r : Ty} (harg : ReadsAtom tokens a (.arrow :: mid))
      (hresult : ReadsType mid r rest) : ReadsType tokens (.fn a r) rest

/-- Up to `rest`, the tokens are a type without an arrow outside brackets. -/
inductive ReadsAtom : List Token → Ty → List Token → Prop where
  | paren {tokens rest : List Token} {t : Ty} (h : ReadsType tokens t (.closeParen :: rest)) :
      ReadsAtom (.openParen :: tokens) t rest
  | applied {tokens rest : List Token} {c : String} {args : List Ty}
      (h : ReadsArgs tokens args rest) :
      ReadsAtom (.ident c :: .openAngle :: tokens) (.con c args) rest
  | bare {name : String} {rest : List Token} (hend : rest.head? ≠ some .openAngle) :
      ReadsAtom (.ident name :: rest) (bare name) rest

/-- Up to `rest`, the tokens are types with commas between them and a closing bracket. -/
inductive ReadsArgs : List Token → List Ty → List Token → Prop where
  | last {tokens rest : List Token} {t : Ty} (h : ReadsType tokens t (.closeAngle :: rest)) :
      ReadsArgs tokens [t] rest
  | more {tokens mid rest : List Token} {t : Ty} {args : List Ty}
      (hfirst : ReadsType tokens t (.comma :: mid)) (hmore : ReadsArgs mid args rest) :
      ReadsArgs tokens (t :: args) rest

end

section Reader

mutual

/-- The reader finds a derivation. -/
theorem ReadsType.of_readType {tokens : List Token} {t : Ty} {rest : Shorter tokens}
    (h : readType tokens = .ok (t, rest)) : ReadsType tokens t rest.1 := by
  rw [readType] at h
  split at h
  · cases h
  · rename_i arg mid hlt harg
    have : mid.length < tokens.length := Nat.lt_of_succ_lt hlt
    split at h
    · cases h
    · rename_i result rest' hlt' hresult
      cases h
      exact .arrow (.of_readAtom harg) (.of_readType hresult)
  · rename_i arg rest' hend harg
    cases h
    refine .atom (.of_readAtom harg) fun hhead => ?_
    obtain ⟨rest, hlt⟩ := rest
    obtain ⟨mid, rfl⟩ := List.head?_eq_some_iff.1 hhead
    exact hend mid hlt rfl
  termination_by (tokens.length, 1)

theorem ReadsAtom.of_readAtom {tokens : List Token} {t : Ty} {rest : Shorter tokens}
    (h : readAtom tokens = .ok (t, rest)) : ReadsAtom tokens t rest.1 := by
  rw [readAtom.eq_def] at h
  split at h
  · cases h
  · split at h
    · cases h
    · rename_i inner mid hlt hinner
      cases h
      exact .paren (.of_readType hinner)
    · cases h
    · cases h
  · split at h
    · cases h
    · rename_i args mid hlt hargs
      cases h
      exact .applied (.of_readArgs hargs)
  · rename_i hend
    cases h
    refine .bare fun hhead => ?_
    obtain ⟨mid, rfl⟩ := List.head?_eq_some_iff.1 hhead
    exact hend mid rfl
  · cases h
  termination_by (tokens.length, 0)

theorem ReadsArgs.of_readArgs {tokens : List Token} {ts : List Ty} {rest : Shorter tokens}
    (h : readArgs tokens = .ok (ts, rest)) : ReadsArgs tokens ts rest.1 := by
  rw [readArgs] at h
  split at h
  · cases h
  · rename_i first mid hlt hfirst
    have : mid.length < tokens.length := Nat.lt_of_succ_lt hlt
    split at h
    · cases h
    · rename_i more rest' hlt' hmore
      cases h
      exact .more (.of_readType hfirst) (.of_readArgs hmore)
  · rename_i first mid hlt hfirst
    cases h
    exact .last (.of_readType hfirst)
  · cases h
  · cases h
  termination_by (tokens.length, 2)

end

mutual

/-- Every derivation is found. -/
theorem ReadsType.exists_readType_eq : ∀ {tokens rest : List Token} {t : Ty},
    ReadsType tokens t rest → ∃ hlt, readType tokens = .ok (t, ⟨rest, hlt⟩)
  | _, _, _, .atom h hend => by
      obtain ⟨hlt, hread⟩ := h.exists_readAtom_eq
      refine ⟨hlt, ?_⟩
      rw [readType, hread]
      split
      · rename_i heq
        cases heq
      · rename_i heq
        cases heq
        exact (hend rfl).elim
      · rename_i heq
        exact heq.symm
  | _, _, _, .arrow harg hresult => by
      obtain ⟨hlt, hread⟩ := harg.exists_readAtom_eq
      obtain ⟨hlt', hread'⟩ := hresult.exists_readType_eq
      refine ⟨Nat.lt_trans hlt' (Nat.lt_of_succ_lt hlt), ?_⟩
      rw [readType, hread]
      simp only [hread']

theorem ReadsAtom.exists_readAtom_eq : ∀ {tokens rest : List Token} {t : Ty},
    ReadsAtom tokens t rest → ∃ hlt, readAtom tokens = .ok (t, ⟨rest, hlt⟩)
  | _, _, _, .paren h => by
      obtain ⟨hlt, hread⟩ := h.exists_readType_eq
      refine ⟨Nat.lt_succ_of_lt (Nat.lt_of_succ_lt hlt), ?_⟩
      rw [readAtom, hread]
  | _, _, _, .applied h => by
      obtain ⟨hlt, hread⟩ := h.exists_readArgs_eq
      refine ⟨Nat.lt_succ_of_lt (Nat.lt_succ_of_lt hlt), ?_⟩
      rw [readAtom, hread]
  | _, rest, _, .bare hend => by
      refine ⟨Nat.lt_succ_self _, ?_⟩
      rw [readAtom]
      · rfl
      · rintro mid rfl
        exact hend rfl

theorem ReadsArgs.exists_readArgs_eq : ∀ {tokens rest : List Token} {ts : List Ty},
    ReadsArgs tokens ts rest → ∃ hlt, readArgs tokens = .ok (ts, ⟨rest, hlt⟩)
  | _, _, _, .last h => by
      obtain ⟨hlt, hread⟩ := h.exists_readType_eq
      refine ⟨Nat.lt_of_succ_lt hlt, ?_⟩
      rw [readArgs, hread]
  | _, _, _, .more hfirst hmore => by
      obtain ⟨hlt, hread⟩ := hfirst.exists_readType_eq
      obtain ⟨hlt', hread'⟩ := hmore.exists_readArgs_eq
      refine ⟨Nat.lt_trans hlt' (Nat.lt_of_succ_lt hlt), ?_⟩
      rw [readArgs, hread]
      simp only [hread']

end

/-- A whole token list is read as `t` when it has a derivation without a rest. -/
theorem readAll_eq_ok {tokens : List Token} {t : Ty} :
    readAll tokens = .ok t ↔ ReadsType tokens t [] := by
  constructor
  · intro h
    rw [readAll] at h
    split at h
    · cases h
    · rename_i t' hlt hread
      cases h
      exact .of_readType hread
    · cases h
  · intro h
    obtain ⟨hlt, hread⟩ := h.exists_readType_eq
    rw [readAll, hread]

end Reader

end Signature

end Plugboard
