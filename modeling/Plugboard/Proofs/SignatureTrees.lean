import Mathlib
import Plugboard.Proofs.SignatureRoundTrip

/-!
# The signatures that are accepted

Which texts are signatures, said without the reader: a text falls into tokens, each the longest one
that the text begins with there, and the tokens are those of a syntax tree of the grammar

    type ::= atom | atom '->' type
    atom ::= '(' type ')' | Ident | Ident '<' type (',' type)* '>'

A tree looks at nothing behind it, whereas the reader decides by the next token. The two agree
because no type goes on before a token that can stand behind one.
-/

namespace Plugboard

namespace Signature

section Lexing

/-- A token of the language: every token that is no name, and names that are identifiers. -/
def Token.IsLexeme (token : Token) : Prop := ∀ name, token = .ident name → IsIdent name

/-- The text is these tokens with blanks around them. Each token is the longest that its place has
to offer. -/
inductive Splits : List Char → List Token → Prop where
  | nil : Splits [] []
  | blank {c : Char} {cs : List Char} {ts : List Token} (hc : isBlank c = true)
      (h : Splits cs ts) : Splits (c :: cs) ts
  | token {token : Token} {rest : List Char} {ts : List Token} (htoken : token.IsLexeme)
      (hlongest : ∀ other : Token, other.IsLexeme → other.text <+: token.text ++ rest →
        other.text.length ≤ token.text.length)
      (h : Splits rest ts) : Splits (token.text ++ rest) (token :: ts)

theorem isLexeme_ident {name : String} : (Token.ident name).IsLexeme ↔ IsIdent name :=
  ⟨fun h => h name rfl, fun h _ heq => Token.ident.inj heq ▸ h⟩

theorem isLexeme_of_ne_ident {token : Token} (h : ∀ name, token ≠ .ident name) :
    token.IsLexeme := fun name heq => (h name heq).elim

theorem scan_blank {c : Char} (hc : isBlank c = true) (cs : List Char) :
    scan (c :: cs) = scan cs := by
  have hne : ∀ d, isBlank d = false → c ≠ d := by
    rintro d hd rfl
    simp [hc] at hd
  rw [scan, if_pos hc]
  · exact fun _ h => (hne _ rfl h).elim
  all_goals exact hne _ rfl

/-- A name is not cut short. -/
theorem stops_of_longest {name : String} {rest : List Char} (hname : IsIdent name)
    (hlongest : ∀ other : Token, other.IsLexeme → other.text <+: (Token.ident name).text ++ rest →
      other.text.length ≤ (Token.ident name).text.length) : Stops rest := by
  intro d hd
  by_contra hfollowing
  obtain ⟨c, cs, heq, hc, hcs⟩ := hname
  obtain ⟨rest, rfl⟩ := List.head?_eq_some_iff.1 hd
  -- with one more character the name would be an identifier still
  have hmore : IsIdent (String.ofList (c :: (cs ++ [d]))) :=
    ⟨c, cs ++ [d], String.toList_ofList, hc, fun x hx => by
      rcases List.mem_append.1 hx with hx | hx
      · exact hcs x hx
      · rw [List.mem_singleton.1 hx]
        exact (Bool.not_eq_false _).mp hfollowing⟩
  have hle := hlongest (.ident _) (isLexeme_ident.2 hmore)
    ⟨rest, by simp [Token.text, heq, String.toList_ofList]⟩
  simp [Token.text, heq, String.toList_ofList] at hle

/-- What is a name in front of a text is not longer than the characters there that belong to one. -/
theorem length_le_of_isIdent {name : String} {c : Char} {cs : List Char} (hname : IsIdent name)
    (h : name.toList <+: c :: cs) : name.toList.length ≤ (cs.takeWhile isFollowing).length + 1 := by
  obtain ⟨d, ds, heq, -, hds⟩ := hname
  rw [heq, List.cons_prefix_cons] at h
  obtain ⟨rest, hrest⟩ := h.2
  rw [heq, ← hrest, List.takeWhile_append_of_pos hds]
  simp

theorem scan_of_splits {cs : List Char} {ts : List Token} (h : Splits cs ts) :
    scan cs = .ok ts := by
  induction h with
  | nil => rw [scan]
  | blank hc _ ih => rw [scan_blank hc, ih]
  | @token token rest ts htoken hlongest _ ih =>
      have hscans : Scans (token.text ++ rest) [token] rest := by
        cases token with
        | ident name =>
            have hname := isLexeme_ident.1 htoken
            exact .ident hname (stops_of_longest hname hlongest)
        | _ => exact .mark _ (by simp) rest
      rw [hscans, ih]
      rfl

/-- No token that starts like one of the marks is longer than it. -/
theorem length_le_of_mark {token other : Token} {rest : List Char}
    (htoken : ∀ name, token ≠ .ident name) (hother : other.IsLexeme)
    (h : other.text <+: token.text ++ rest) : other.text.length ≤ token.text.length := by
  cases other with
  | ident name =>
      obtain ⟨c, cs, heq, hc, -⟩ := isLexeme_ident.1 hother
      rw [Token.text, heq] at h
      cases token with
      | ident name => exact (htoken name rfl).elim
      | _ =>
          obtain ⟨rfl, -⟩ := List.cons_prefix_cons.1 h
          cases hc
  | _ =>
      cases token with
      | ident name => exact (htoken name rfl).elim
      | _ => simp_all [Token.text]

theorem Splits.mark {token : Token} {text rest : List Char} {ts : List Token}
    (htext : text = token.text ++ rest) (htoken : ∀ name, token ≠ .ident name)
    (h : Splits rest ts) : Splits text (token :: ts) :=
  htext ▸ .token (isLexeme_of_ne_ident htoken) (fun _ => length_le_of_mark htoken) h

theorem Splits.ident {c : Char} {cs : List Char} {ts : List Token} (hc : isInitial c = true)
    (h : Splits (cs.dropWhile isFollowing) ts) :
    Splits (c :: cs) (.ident (String.ofList (c :: cs.takeWhile isFollowing)) :: ts) := by
  have htext : (Token.ident (String.ofList (c :: cs.takeWhile isFollowing))).text ++
      cs.dropWhile isFollowing = c :: cs := by simp [Token.text, String.toList_ofList]
  have hsplits := Splits.token (isLexeme_ident.2 (isIdent_cons hc cs)) (fun other hother h => ?_) h
  · rwa [htext] at hsplits
  · rw [htext] at h
    cases other with
    | ident name =>
        simpa [Token.text, String.toList_ofList] using
          length_le_of_isIdent (isLexeme_ident.1 hother) h
    | _ =>
        -- no other token begins with a letter
        obtain ⟨rfl, -⟩ := List.cons_prefix_cons.1 h
        cases hc

theorem splits_of_scan {cs : List Char} {ts : List Token} (h : scan cs = .ok ts) :
    Splits cs ts := by
  fun_induction scan cs generalizing ts
  case case1 =>
    cases h
    exact .nil
  case case8 hblank ih => exact .blank hblank (ih h)
  case case9 hinitial _ ih =>
    obtain ⟨ts, hscan, rfl⟩ := map_eq_ok.1 h
    exact .ident hinitial (ih hscan)
  case case10 => cases h
  all_goals
    rename_i ih
    obtain ⟨ts, hscan, rfl⟩ := map_eq_ok.1 h
    exact .mark rfl (by simp) (ih hscan)

theorem splits_iff {cs : List Char} {ts : List Token} : Splits cs ts ↔ scan cs = .ok ts :=
  ⟨scan_of_splits, splits_of_scan⟩

end Lexing

section Trees

mutual

/-- A type as it is written. -/
inductive TypeTree where
  | atom (a : AtomTree)
  | arrow (a : AtomTree) (result : TypeTree)

/-- A type without an arrow outside brackets. -/
inductive AtomTree where
  | paren (t : TypeTree)
  | ident (name : String)
  | applied (name : String) (args : ArgsTree)

/-- Types between angle brackets, of which there is one at least. -/
inductive ArgsTree where
  | last (t : TypeTree)
  | more (t : TypeTree) (args : ArgsTree)

end

mutual

/-- What is written. -/
def TypeTree.tokens : TypeTree → List Token
  | .atom a => a.tokens
  | .arrow a result => a.tokens ++ .arrow :: result.tokens

def AtomTree.tokens : AtomTree → List Token
  | .paren t => .openParen :: (t.tokens ++ [.closeParen])
  | .ident name => [.ident name]
  | .applied name args => .ident name :: .openAngle :: args.tokens

def ArgsTree.tokens : ArgsTree → List Token
  | .last t => t.tokens ++ [.closeAngle]
  | .more t args => t.tokens ++ .comma :: args.tokens

end

mutual

/-- What it stands for. -/
def TypeTree.ty : TypeTree → Ty
  | .atom a => a.ty
  | .arrow a result => .fn a.ty result.ty

def AtomTree.ty : AtomTree → Ty
  | .paren t => t.ty
  | .ident name => bare name
  | .applied name args => .con name args.tys

def ArgsTree.tys : ArgsTree → List Ty
  | .last t => [t.ty]
  | .more t args => t.ty :: args.tys

end

mutual

/-- The reader goes through a tree, whatever follows that cannot go on with it. -/
theorem TypeTree.reads : ∀ (tree : TypeTree) {rest : List Token}, Closed rest →
    ReadsType (tree.tokens ++ rest) tree.ty rest
  | .atom a, _, hrest => .atom (a.reads hrest.1) hrest.2
  | .arrow a result, rest, hrest => by
      have harg : ReadsAtom (a.tokens ++ .arrow :: (result.tokens ++ rest)) a.ty _ :=
        a.reads nofun
      simpa [TypeTree.tokens, TypeTree.ty] using ReadsType.arrow harg (result.reads hrest)

theorem AtomTree.reads : ∀ (tree : AtomTree) {rest : List Token},
    rest.head? ≠ some .openAngle → ReadsAtom (tree.tokens ++ rest) tree.ty rest
  | .paren t, rest, _ => by
      have ht : ReadsType (t.tokens ++ .closeParen :: rest) t.ty _ := t.reads ⟨nofun, nofun⟩
      simpa [AtomTree.tokens, AtomTree.ty] using ReadsAtom.paren ht
  | .ident _, _, hrest => .bare hrest
  | .applied _ args, rest, _ => .applied (args.reads rest)

theorem ArgsTree.reads : ∀ (tree : ArgsTree) (rest : List Token),
    ReadsArgs (tree.tokens ++ rest) tree.tys rest
  | .last t, rest => by
      have ht : ReadsType (t.tokens ++ .closeAngle :: rest) t.ty _ := t.reads ⟨nofun, nofun⟩
      simpa [ArgsTree.tokens, ArgsTree.tys] using ReadsArgs.last ht
  | .more t args, rest => by
      have ht : ReadsType (t.tokens ++ .comma :: (args.tokens ++ rest)) t.ty _ :=
        t.reads ⟨nofun, nofun⟩
      simpa [ArgsTree.tokens, ArgsTree.tys] using ReadsArgs.more ht (args.reads rest)

end

mutual

/-- What the reader goes through is a tree. -/
theorem ReadsType.exists_tree : ∀ {tokens rest : List Token} {t : Ty}, ReadsType tokens t rest →
    ∃ tree : TypeTree, tokens = tree.tokens ++ rest ∧ tree.ty = t
  | _, _, _, .atom h _ =>
      have ⟨a, htokens, ha⟩ := h.exists_tree
      ⟨.atom a, htokens, ha⟩
  | _, _, _, .arrow harg hresult => by
      obtain ⟨a, rfl, rfl⟩ := harg.exists_tree
      obtain ⟨result, rfl, rfl⟩ := hresult.exists_tree
      exact ⟨.arrow a result, by simp [TypeTree.tokens], rfl⟩

theorem ReadsAtom.exists_tree : ∀ {tokens rest : List Token} {t : Ty}, ReadsAtom tokens t rest →
    ∃ tree : AtomTree, tokens = tree.tokens ++ rest ∧ tree.ty = t
  | _, _, _, .paren h => by
      obtain ⟨t, rfl, rfl⟩ := h.exists_tree
      exact ⟨.paren t, by simp [AtomTree.tokens], rfl⟩
  | _, _, _, .applied h => by
      obtain ⟨args, rfl, rfl⟩ := h.exists_tree
      exact ⟨.applied _ args, rfl, rfl⟩
  | _, _, _, .bare _ => ⟨.ident _, rfl, rfl⟩

theorem ReadsArgs.exists_tree : ∀ {tokens rest : List Token} {ts : List Ty},
    ReadsArgs tokens ts rest → ∃ tree : ArgsTree, tokens = tree.tokens ++ rest ∧ tree.tys = ts
  | _, _, _, .last h => by
      obtain ⟨t, rfl, rfl⟩ := h.exists_tree
      exact ⟨.last t, by simp [ArgsTree.tokens], rfl⟩
  | _, _, _, .more hfirst hmore => by
      obtain ⟨t, rfl, rfl⟩ := hfirst.exists_tree
      obtain ⟨args, rfl, rfl⟩ := hmore.exists_tree
      exact ⟨.more t args, by simp [ArgsTree.tokens], rfl⟩

end

theorem readAll_eq_ok_iff_tree {tokens : List Token} {t : Ty} :
    readAll tokens = .ok t ↔ ∃ tree : TypeTree, tree.tokens = tokens ∧ tree.ty = t := by
  rw [readAll_eq_ok]
  constructor
  · intro h
    obtain ⟨tree, htokens, ht⟩ := h.exists_tree
    exact ⟨tree, by rw [htokens, List.append_nil], ht⟩
  · rintro ⟨tree, rfl, rfl⟩
    have h : ReadsType (tree.tokens ++ []) tree.ty [] := tree.reads ⟨nofun, nofun⟩
    rwa [List.append_nil] at h

mutual

/-- Two trees with which the same tokens begin are the same if neither could go on. -/
theorem TypeTree.eq_of_append : ∀ {tree tree' : TypeTree} {rest rest' : List Token},
    tree.tokens ++ rest = tree'.tokens ++ rest' → Closed rest → Closed rest' →
      tree = tree' ∧ rest = rest'
  | .atom a, .atom a', _, _, h, hrest, hrest' => by
      obtain ⟨rfl, hrests⟩ := AtomTree.eq_of_append h hrest.1 hrest'.1
      exact ⟨rfl, hrests⟩
  | .atom a, .arrow a' result', rest, rest', h, hrest, hrest' => by
      simp only [TypeTree.tokens, List.append_assoc, List.cons_append] at h
      obtain ⟨-, rfl⟩ := AtomTree.eq_of_append h hrest.1 nofun
      exact (hrest.2 rfl).elim
  | .arrow a result, .atom a', rest, rest', h, hrest, hrest' => by
      simp only [TypeTree.tokens, List.append_assoc, List.cons_append] at h
      obtain ⟨-, rfl⟩ := AtomTree.eq_of_append h nofun hrest'.1
      exact (hrest'.2 rfl).elim
  | .arrow a result, .arrow a' result', rest, rest', h, hrest, hrest' => by
      simp only [TypeTree.tokens, List.append_assoc, List.cons_append] at h
      obtain ⟨rfl, hresults⟩ := AtomTree.eq_of_append h nofun nofun
      obtain ⟨rfl, hrests⟩ := TypeTree.eq_of_append (List.cons.inj hresults).2 hrest hrest'
      exact ⟨rfl, hrests⟩

theorem AtomTree.eq_of_append : ∀ {tree tree' : AtomTree} {rest rest' : List Token},
    tree.tokens ++ rest = tree'.tokens ++ rest' → rest.head? ≠ some .openAngle →
      rest'.head? ≠ some .openAngle → tree = tree' ∧ rest = rest'
  | .paren t, .paren t', _, _, h, _, _ => by
      simp only [AtomTree.tokens, List.cons_append, List.append_assoc, List.nil_append,
        List.cons.injEq, true_and] at h
      obtain ⟨rfl, hrests⟩ := TypeTree.eq_of_append h ⟨nofun, nofun⟩ ⟨nofun, nofun⟩
      exact ⟨rfl, (List.cons.inj hrests).2⟩
  | .ident name, .ident name', _, _, h, _, _ => by
      obtain ⟨hname, hrests⟩ := List.cons.inj h
      cases hname
      exact ⟨rfl, hrests⟩
  | .ident name, .applied name' args', rest, _, h, hrest, _ => by
      obtain ⟨-, rfl : rest = _⟩ := List.cons.inj h
      exact (hrest rfl).elim
  | .applied name args, .ident name', _, rest', h, _, hrest' => by
      obtain ⟨-, rfl : _ = rest'⟩ := List.cons.inj h
      exact (hrest' rfl).elim
  | .applied name args, .applied name' args', _, _, h, _, _ => by
      obtain ⟨hname, hargs⟩ := List.cons.inj h
      cases hname
      obtain ⟨rfl, hrests⟩ := ArgsTree.eq_of_append (List.cons.inj hargs).2
      exact ⟨rfl, hrests⟩
  | .paren _, .ident _, _, _, h, _, _ => nomatch (List.cons.inj h).1
  | .paren _, .applied _ _, _, _, h, _, _ => nomatch (List.cons.inj h).1
  | .ident _, .paren _, _, _, h, _, _ => nomatch (List.cons.inj h).1
  | .applied _ _, .paren _, _, _, h, _, _ => nomatch (List.cons.inj h).1

theorem ArgsTree.eq_of_append : ∀ {tree tree' : ArgsTree} {rest rest' : List Token},
    tree.tokens ++ rest = tree'.tokens ++ rest' → tree = tree' ∧ rest = rest'
  | .last t, .last t', _, _, h => by
      simp only [ArgsTree.tokens, List.append_assoc, List.cons_append] at h
      obtain ⟨rfl, hrests⟩ := TypeTree.eq_of_append h ⟨nofun, nofun⟩ ⟨nofun, nofun⟩
      exact ⟨rfl, (List.cons.inj hrests).2⟩
  | .last t, .more t' args', _, _, h => by
      simp only [ArgsTree.tokens, List.append_assoc, List.cons_append] at h
      obtain ⟨-, hrests⟩ := TypeTree.eq_of_append h ⟨nofun, nofun⟩ ⟨nofun, nofun⟩
      cases hrests
  | .more t args, .last t', _, _, h => by
      simp only [ArgsTree.tokens, List.append_assoc, List.cons_append] at h
      obtain ⟨-, hrests⟩ := TypeTree.eq_of_append h ⟨nofun, nofun⟩ ⟨nofun, nofun⟩
      cases hrests
  | .more t args, .more t' args', _, _, h => by
      simp only [ArgsTree.tokens, List.append_assoc, List.cons_append] at h
      obtain ⟨rfl, hmore⟩ := TypeTree.eq_of_append h ⟨nofun, nofun⟩ ⟨nofun, nofun⟩
      obtain ⟨rfl, hrests⟩ := ArgsTree.eq_of_append (List.cons.inj hmore).2
      exact ⟨rfl, hrests⟩

end

/-- The grammar is unambiguous. -/
theorem TypeTree.tokens_injective : Function.Injective TypeTree.tokens := fun _ _ h =>
  have hclosed : Closed [] := ⟨nofun, nofun⟩
  (TypeTree.eq_of_append (congrArg (· ++ []) h) hclosed hclosed).1

end Trees

section Descent

/-- A reading that may fail, and that has no outcome if it does not end. -/
abbrev Attempt (α : Type) := ExceptT Mistake Option α

/-- The reading of the front of a token list, with what is left. -/
def Attempt.of {α : Type} {tokens : List Token} (read : Read α tokens) :
    Attempt (α × List Token) :=
  ExceptT.mk (some (read.map fun found => (found.1, found.2.1)))

mutual

/-- The descent as such: nothing says that it gets further down the tokens, and only `n` calls may
be open at once. -/
def typeIn : Nat → List Token → Attempt (Ty × List Token)
  | 0, _ => ExceptT.mk none
  | n + 1, tokens => do
      match ← atomIn n tokens with
      | (arg, .arrow :: rest) =>
          let (result, rest) ← typeIn n rest
          return (.fn arg result, rest)
      | (arg, rest) => return (arg, rest)

def atomIn : Nat → List Token → Attempt (Ty × List Token)
  | 0, _ => ExceptT.mk none
  | _ + 1, [] => throw .unexpectedEnd
  | n + 1, .openParen :: tokens => do
      match ← typeIn n tokens with
      | (inner, .closeParen :: rest) => return (inner, rest)
      | (_, found :: _) => throw (.unclosedParen (some found))
      | (_, []) => throw (.unclosedParen none)
  | n + 1, .ident name :: .openAngle :: tokens => do
      let (args, rest) ← argsIn n tokens
      return (.con name args, rest)
  | _ + 1, .ident name :: rest => return (bare name, rest)
  | _ + 1, found :: _ => throw (.unexpected found)

def argsIn : Nat → List Token → Attempt (List Ty × List Token)
  | 0, _ => ExceptT.mk none
  | n + 1, tokens => do
      match ← typeIn n tokens with
      | (first, .comma :: rest) =>
          let (more, rest) ← argsIn n rest
          return (first :: more, rest)
      | (first, .closeAngle :: rest) => return ([first], rest)
      | (_, found :: _) => throw (.badSeparator found)
      | (_, []) => throw .unclosedAngle

end

def readIn (n : Nat) (tokens : List Token) : Attempt Ty := do
  match ← typeIn n tokens with
  | (t, []) => return t
  | (_, found :: _) => throw (.unexpected found)

mutual

/-- As the tokens get fewer from one type to the next, three open calls for each token are
enough. -/
theorem typeIn_eq : ∀ {n : Nat} {tokens : List Token}, 3 * tokens.length + 2 ≤ n →
    typeIn n tokens = .of (readType tokens)
  | n + 1, tokens, hn => by
      rw [typeIn, readType, atomIn_eq (by omega)]
      rcases readAtom tokens with e | ⟨arg, rest, hlt⟩
      · rfl
      rcases rest with _ | ⟨token, rest⟩
      · rfl
      cases token with
      | arrow =>
          rw [List.length_cons] at hlt
          change (typeIn n rest >>= fun found => pure (Ty.fn arg found.1, found.2)) = _
          rw [typeIn_eq (by omega)]
          dsimp only
          cases readType rest <;> rfl
      | _ => rfl

theorem atomIn_eq : ∀ {n : Nat} {tokens : List Token}, 3 * tokens.length + 1 ≤ n →
    atomIn n tokens = .of (readAtom tokens)
  | n + 1, [], _ => by
      rw [atomIn, readAtom]
      rfl
  | n + 1, .openParen :: tokens, hn => by
      rw [List.length_cons] at hn
      rw [atomIn, readAtom, typeIn_eq (by omega)]
      rcases readType tokens with e | ⟨inner, rest, hlt⟩
      · rfl
      rcases rest with _ | ⟨token, rest⟩
      · rfl
      cases token <;> rfl
  | n + 1, .ident name :: tokens, hn => by
      by_cases hangle : ∃ rest, tokens = .openAngle :: rest
      · obtain ⟨tokens, rfl⟩ := hangle
        rw [List.length_cons, List.length_cons] at hn
        rw [atomIn, readAtom, argsIn_eq (by omega)]
        rcases readArgs tokens with e | ⟨args, rest, hlt⟩ <;> rfl
      · rw [not_exists] at hangle
        rw [atomIn, readAtom]
        · rfl
        all_goals exact hangle
  | n + 1, .arrow :: tokens, _ | n + 1, .openAngle :: tokens, _ | n + 1, .closeAngle :: tokens, _
  | n + 1, .comma :: tokens, _ | n + 1, .closeParen :: tokens, _ => by
      rw [atomIn, readAtom]
      · rfl
      all_goals simp

theorem argsIn_eq : ∀ {n : Nat} {tokens : List Token}, 3 * tokens.length + 3 ≤ n →
    argsIn n tokens = .of (readArgs tokens)
  | n + 1, tokens, hn => by
      rw [argsIn, readArgs, typeIn_eq (by omega)]
      rcases readType tokens with e | ⟨first, rest, hlt⟩
      · rfl
      rcases rest with _ | ⟨token, rest⟩
      · rfl
      cases token with
      | comma =>
          rw [List.length_cons] at hlt
          change (argsIn n rest >>= fun found => pure (first :: found.1, found.2)) = _
          rw [argsIn_eq (by omega)]
          dsimp only
          cases readArgs rest <;> rfl
      | _ => rfl

end

/-- The descent ends, and on every token list it comes to what the reader comes to. -/
theorem readIn_eq {n : Nat} {tokens : List Token} (hn : 3 * tokens.length + 2 ≤ n) :
    (readIn n tokens).run = some (readAll tokens) := by
  rw [readIn, readAll, typeIn_eq hn]
  rcases readType tokens with e | ⟨t, rest, hlt⟩
  · rfl
  · cases rest <;> rfl

end Descent

end Signature

namespace Ty

open Signature

theorem parse_eq_ok {source : String} {t : Ty} :
    parse source = .ok t ↔
      ∃ tree : TypeTree, Splits source.toList tree.tokens ∧ tree.ty = t := by
  rw [parse]
  simp only [splits_iff]
  cases scan source.toList with
  | error rest => simp
  | ok tokens =>
      simp only [Except.ok.injEq]
      constructor
      · intro h
        cases hread : readAll tokens with
        | error e =>
            rw [hread] at h
            cases h
        | ok u =>
            rw [hread] at h
            cases h
            obtain ⟨tree, htokens, ht⟩ := readAll_eq_ok_iff_tree.1 hread
            exact ⟨tree, htokens.symm, ht⟩
      · rintro ⟨tree, htokens, ht⟩
        rw [readAll_eq_ok_iff_tree.2 ⟨tree, htokens.symm, ht⟩]
        rfl

/-- A text is read as a type exactly if it falls into the tokens of a tree that stands for this
type. It falls into the tokens of one tree at most, for it falls into tokens in one way and these
are the tokens of one tree. On whatever tokens, the reading ends. -/
theorem parse_exact :
    (∀ source t, parse source = .ok t ↔
        ∃ tree : TypeTree, Splits source.toList tree.tokens ∧ tree.ty = t) ∧
      (∀ cs, {ts | Splits cs ts}.Subsingleton) ∧ Function.Injective TypeTree.tokens ∧
      ∀ tokens n, (readIn (n + (3 * tokens.length + 2)) tokens).run = some (readAll tokens) := by
  refine ⟨fun _ _ => parse_eq_ok, fun cs ts hts us hus => ?_, TypeTree.tokens_injective,
    fun _ n => readIn_eq (Nat.le_add_left _ n)⟩
  exact Except.ok.inj ((scan_of_splits hts).symm.trans (scan_of_splits hus))

end Ty

end Plugboard
