import Mathlib
import Plugboard.Proofs.Outcome
import Plugboard.Proofs.SignatureGrammar

/-!
# Types survive being written

What the reader makes of a text has only identifiers for names, variables whose names start in
lower case and base types whose names do not. Such a type is read back from its written form, and
no other type is: arrows, brackets and commas come out where they were, and each name ends where
the written form has it end.
-/

namespace Plugboard

open Signature

namespace Ty

mutual

/-- Names are identifiers, and their first letter tells variables from base types. -/
def Readable : Ty → Prop
  | .var v => IsIdent v ∧ v.front.isLower = true
  | .con c ts => IsIdent c ∧ (ts = [] → c.front.isLower = false) ∧ AllReadable ts
  | .fn a r => a.Readable ∧ r.Readable

def AllReadable : List Ty → Prop
  | [] => True
  | t :: ts => t.Readable ∧ AllReadable ts

end

mutual

/-- The tokens of the written form. -/
def tokens : Ty → List Token
  | .var v => [.ident v]
  | .con c [] => [.ident c]
  | .con c (t :: ts) => .ident c :: .openAngle :: (t.tokens ++ (moreTokens ts ++ [.closeAngle]))
  | .fn a r =>
      (if a.isFn then .openParen :: (a.tokens ++ [.closeParen]) else a.tokens) ++
        .arrow :: r.tokens

/-- The tokens of the arguments after the first, each behind its comma. -/
def moreTokens : List Ty → List Token
  | [] => []
  | t :: ts => .comma :: (t.tokens ++ moreTokens ts)

end

end Ty

namespace Signature

variable {cs mid rest : List Char} {ts us : List Token} {name : String}

section Scanning

/-- The text of a token. -/
def Token.text : Token → List Char
  | .arrow => ['-', '>']
  | .openAngle => ['<']
  | .closeAngle => ['>']
  | .comma => [',']
  | .openParen => ['(']
  | .closeParen => [')']
  | .ident name => name.toList

/-- The front of a text is made of these tokens, up to `rest`. -/
def Scans (cs : List Char) (ts : List Token) (rest : List Char) : Prop :=
  scan cs = (scan rest).map (ts ++ ·)

theorem Scans.nil (cs : List Char) : Scans cs [] cs := by
  unfold Scans
  cases scan cs <;> rfl

theorem Scans.trans (h : Scans cs ts mid) (h' : Scans mid us rest) : Scans cs (ts ++ us) rest := by
  unfold Scans at *
  rw [h, h']
  cases scan rest <;> simp [Except.map]

/-- A name ends before such a text. -/
def Stops (cs : List Char) : Prop := ∀ c, cs.head? = some c → isFollowing c = false

theorem stops_nil : Stops [] := fun _ h => nomatch h

theorem stops_cons {c : Char} (hc : isFollowing c = false) (cs : List Char) : Stops (c :: cs) := by
  rintro d hd
  cases hd
  exact hc

theorem Stops.takeWhile_eq (h : Stops cs) : cs.takeWhile isFollowing = [] := by
  cases cs with
  | nil => rfl
  | cons c cs => exact List.takeWhile_cons_of_neg (by simp [h c rfl])

theorem Stops.dropWhile_eq (h : Stops cs) : cs.dropWhile isFollowing = cs := by
  cases cs with
  | nil => rfl
  | cons c cs => exact List.dropWhile_cons_of_neg (by simp [h c rfl])

theorem ne_of_isInitial {c d : Char} (hc : isInitial c = true) (hd : isInitial d = false) :
    c ≠ d := by
  rintro rfl
  simp [hc] at hd

theorem not_isBlank_of_isInitial {c : Char} (hc : isInitial c = true) : ¬ isBlank c = true := by
  simp [isBlank, ne_of_isInitial hc (d := ' ') rfl, ne_of_isInitial hc (d := '\t') rfl,
    ne_of_isInitial hc (d := '\n') rfl, ne_of_isInitial hc (d := '\r') rfl,
    ne_of_isInitial hc (d := '\x0c') rfl]

/-- A name is read up to where it ends. -/
theorem Scans.ident (hname : IsIdent name) (hcs : Stops cs) :
    Scans (name.toList ++ cs) [.ident name] cs := by
  obtain ⟨c, ds, heq, hc, hds⟩ := hname
  have hname : String.ofList (c :: ds) = name := by rw [← heq, String.ofList_toList]
  rw [Scans, heq, List.cons_append, scan, if_neg (not_isBlank_of_isInitial hc), if_pos hc,
    List.takeWhile_append_of_pos hds, List.dropWhile_append_of_pos hds, hcs.takeWhile_eq,
    hcs.dropWhile_eq, List.append_nil, hname]
  · rfl
  · exact fun _ h => (ne_of_isInitial hc rfl h).elim
  all_goals exact ne_of_isInitial hc rfl

theorem Scans.blank (cs : List Char) : Scans (' ' :: cs) [] cs := by
  have hscan : scan (' ' :: cs) = scan cs := by simp [scan, isBlank]
  rw [Scans, hscan]
  exact Scans.nil cs

/-- A token that is no name is read wherever its text is. -/
theorem Scans.mark (token : Token) (h : ∀ name, token ≠ .ident name) (cs : List Char) :
    Scans (token.text ++ cs) [token] cs := by
  rw [Scans]
  cases token with
  | ident name => exact (h name rfl).elim
  | _ => simp only [Token.text, List.cons_append, List.nil_append, scan]

end Scanning

section Writing

theorem stops_renderMore (ts : List Ty) (cs : List Char) :
    Stops ((Ty.renderMore ts).toList ++ '>' :: cs) := by
  cases ts with
  | nil => exact stops_cons rfl _
  | cons t ts =>
      simp only [Ty.renderMore, String.toList_append, List.append_assoc]
      exact stops_cons rfl _

/-- An argument is split into its tokens, in parentheses if it is a function. -/
theorem Scans.argument {a : Ty}
    (h : ∀ {cs : List Char}, Stops cs → Scans (a.render.toList ++ cs) a.tokens cs)
    (cs : List Char) :
    Scans ((if a.isFn then "(" ++ a.render ++ ")" else a.render).toList ++ ' ' :: cs)
      (if a.isFn then .openParen :: (a.tokens ++ [.closeParen]) else a.tokens) (' ' :: cs) := by
  split
  · have hopen : ∀ cs, Scans ('(' :: cs) [.openParen] cs := .mark .openParen (by simp)
    have hclose : ∀ cs, Scans (')' :: cs) [.closeParen] cs := .mark .closeParen (by simp)
    simpa using (hopen _).trans ((h (stops_cons rfl _)).trans (hclose (' ' :: cs)))
  · exact h (stops_cons rfl _)

mutual

/-- The written form of a readable type is split into its tokens. -/
theorem scans_render : ∀ {t : Ty}, t.Readable → ∀ {cs : List Char}, Stops cs →
    Scans (t.render.toList ++ cs) t.tokens cs
  | .var v, ht, cs, hcs => .ident ht.1 hcs
  | .con c [], ht, cs, hcs => .ident ht.1 hcs
  | .con c (t :: ts), ht, cs, _ => by
      have hopen : ∀ cs, Scans ('<' :: cs) [.openAngle] cs := .mark .openAngle (by simp)
      have hclose : ∀ cs, Scans ('>' :: cs) [.closeAngle] cs := .mark .closeAngle (by simp)
      have hargs := (scans_render ht.2.2.1 (stops_renderMore ts cs)).trans
        ((scans_renderMore ht.2.2.2 cs).trans (hclose cs))
      have hall := (Scans.ident ht.1 (stops_cons rfl _)).trans ((hopen _).trans hargs)
      simpa [Ty.render, Ty.tokens] using hall
  | .fn a r, ht, cs, hcs => by
      have harrow : ∀ cs, Scans ('-' :: '>' :: cs) [.arrow] cs := .mark .arrow (by simp)
      have hresult := (Scans.blank _).trans (scans_render ht.2 hcs)
      have hall := (Scans.argument (scans_render ht.1) _).trans
        ((Scans.blank _).trans ((harrow _).trans hresult))
      simpa [Ty.render, Ty.tokens] using hall

theorem scans_renderMore : ∀ {ts : List Ty}, Ty.AllReadable ts → ∀ cs : List Char,
    Scans ((Ty.renderMore ts).toList ++ '>' :: cs) (Ty.moreTokens ts) ('>' :: cs)
  | [], _, cs => .nil _
  | t :: ts, hts, cs => by
      have hcomma : ∀ cs, Scans (',' :: cs) [.comma] cs := .mark .comma (by simp)
      have hall := (hcomma _).trans ((Scans.blank _).trans
        ((scans_render hts.1 (stops_renderMore ts cs)).trans (scans_renderMore hts.2 cs)))
      simpa [Ty.renderMore, Ty.moreTokens] using hall

end

end Writing

section Names

theorem isIdent_cons {c : Char} (hc : isInitial c = true) (cs : List Char) :
    IsIdent (String.ofList (c :: cs.takeWhile isFollowing)) :=
  ⟨c, _, String.toList_ofList, hc, List.all_eq_true.1 List.all_takeWhile⟩

/-- All names among the tokens are identifiers. -/
def AllIdents (tokens : List Token) : Prop := ∀ name, Token.ident name ∈ tokens → IsIdent name

theorem allIdents_cons {token : Token} {tokens : List Token} :
    AllIdents (token :: tokens) ↔
      (∀ name, token = .ident name → IsIdent name) ∧ AllIdents tokens := by
  constructor
  · exact fun h =>
      ⟨fun name heq => h name (by simp [heq]), fun name hmem => h name (by simp [hmem])⟩
  · rintro ⟨h, htokens⟩ name hmem
    exact (List.mem_cons.1 hmem).elim (fun heq => h name heq.symm) (htokens name)

/-- Whatever is read as a name is one. -/
theorem allIdents_of_scan {tokens : List Token} (h : scan cs = .ok tokens) :
    AllIdents tokens := by
  fun_induction scan cs generalizing tokens
  case case1 =>
    cases h
    exact fun _ hmem => (List.not_mem_nil hmem).elim
  case case8 ih => exact ih h
  case case9 hinitial _ ih =>
    obtain ⟨tokens, hscan, rfl⟩ := map_eq_ok.1 h
    refine allIdents_cons.2 ⟨fun name heq => ?_, ih hscan⟩
    cases heq
    exact isIdent_cons hinitial _
  case case10 => cases h
  all_goals
    rename_i ih
    obtain ⟨tokens, hscan, rfl⟩ := map_eq_ok.1 h
    exact allIdents_cons.2 ⟨fun name heq => (nomatch heq), ih hscan⟩

end Names

section Derivations

mutual

/-- A derivation from identifiers gives a readable type and leaves identifiers. -/
theorem ReadsType.readable : ∀ {tokens rest : List Token} {t : Ty},
    ReadsType tokens t rest → AllIdents tokens → t.Readable ∧ AllIdents rest
  | _, _, _, .atom h _, hall => h.readable hall
  | _, _, _, .arrow harg hresult, hall =>
      have ⟨ha, hmid⟩ := harg.readable hall
      have ⟨hr, hrest⟩ := hresult.readable (allIdents_cons.1 hmid).2
      ⟨⟨ha, hr⟩, hrest⟩

theorem ReadsAtom.readable : ∀ {tokens rest : List Token} {t : Ty},
    ReadsAtom tokens t rest → AllIdents tokens → t.Readable ∧ AllIdents rest
  | _, _, _, .paren h, hall =>
      have ⟨ht, hmid⟩ := h.readable (allIdents_cons.1 hall).2
      ⟨ht, (allIdents_cons.1 hmid).2⟩
  | _, _, _, .applied h, hall =>
      have ⟨hname, hall⟩ := allIdents_cons.1 hall
      have ⟨hne, hargs, hrest⟩ := h.readable (allIdents_cons.1 hall).2
      ⟨⟨hname _ rfl, fun hnil => (hne hnil).elim, hargs⟩, hrest⟩
  | _, _, _, .bare _, hall => by
      obtain ⟨hname, hrest⟩ := allIdents_cons.1 hall
      refine ⟨?_, hrest⟩
      unfold bare
      split
      · rename_i hlower
        exact ⟨hname _ rfl, hlower⟩
      · rename_i hlower
        exact ⟨hname _ rfl, fun _ => Bool.eq_false_iff.2 hlower, trivial⟩

theorem ReadsArgs.readable : ∀ {tokens rest : List Token} {ts : List Ty},
    ReadsArgs tokens ts rest → AllIdents tokens →
      ts ≠ [] ∧ Ty.AllReadable ts ∧ AllIdents rest
  | _, _, _, .last h, hall =>
      have ⟨ht, hmid⟩ := h.readable hall
      ⟨List.cons_ne_nil _ _, ⟨ht, trivial⟩, (allIdents_cons.1 hmid).2⟩
  | _, _, _, .more hfirst hmore, hall =>
      have ⟨ht, hmid⟩ := hfirst.readable hall
      have ⟨_, hts, hrest⟩ := hmore.readable (allIdents_cons.1 hmid).2
      ⟨List.cons_ne_nil _ _, ⟨ht, hts⟩, hrest⟩

end

/-- No type goes on before such a rest. -/
def Closed (rest : List Token) : Prop := rest.head? ≠ some .openAngle ∧ rest.head? ≠ some .arrow

/-- The tokens are read as `t`, whatever follows that does not go on with it. -/
structure Reads (tokens : List Token) (t : Ty) : Prop where
  atom : t.isFn = false → ∀ {rest : List Token}, rest.head? ≠ some .openAngle →
    ReadsAtom (tokens ++ rest) t rest
  type : ∀ {rest : List Token}, Closed rest → ReadsType (tokens ++ rest) t rest

theorem Reads.of_atom {tokens : List Token} {t : Ty}
    (h : ∀ {rest : List Token}, rest.head? ≠ some .openAngle → ReadsAtom (tokens ++ rest) t rest) :
    Reads tokens t :=
  ⟨fun _ _ => h, fun hrest => .atom (h hrest.1) hrest.2⟩

theorem bare_of_isLower (h : name.front.isLower = true) : bare name = .var name := if_pos h

theorem bare_of_not_isLower (h : name.front.isLower = false) : bare name = .con name [] :=
  if_neg (Bool.eq_false_iff.1 h)

/-- An argument is read, in parentheses if it is a function. -/
theorem Reads.argument {tokens rest : List Token} {a : Ty} (h : Reads tokens a) :
    ReadsAtom ((if a.isFn then .openParen :: (tokens ++ [.closeParen]) else tokens) ++
      .arrow :: rest) a (.arrow :: rest) := by
  split
  · have hread : ReadsType (tokens ++ .closeParen :: .arrow :: rest) a _ := h.type ⟨nofun, nofun⟩
    simpa using ReadsAtom.paren hread
  · rename_i hfn
    exact h.atom (Bool.eq_false_iff.2 hfn) nofun

mutual

/-- The tokens of a readable type are read as this type. -/
theorem reads_tokens : ∀ {t : Ty}, t.Readable → Reads t.tokens t
  | .var v, ht => .of_atom fun {rest} hend => by
      have hread : ReadsAtom (.ident v :: rest) (bare v) rest := .bare hend
      rwa [bare_of_isLower ht.2] at hread
  | .con c [], ht => .of_atom fun {rest} hend => by
      have hread : ReadsAtom (.ident c :: rest) (bare c) rest := .bare hend
      rwa [bare_of_not_isLower (ht.2.1 rfl)] at hread
  | .con c (t :: ts), ht => .of_atom fun {rest} _ => by
      have hread : ReadsAtom (.ident c :: .openAngle :: _) (.con c (t :: ts)) rest :=
        .applied (readsArgs_tokens ht.2.2.2 (reads_tokens ht.2.2.1) rest)
      simpa [Ty.tokens] using hread
  | .fn a r, ht => by
      refine ⟨nofun, fun {rest} hend => ?_⟩
      have hread := ReadsType.arrow (reads_tokens ht.1).argument ((reads_tokens ht.2).type hend)
      simpa [Ty.tokens] using hread

theorem readsArgs_tokens : ∀ {ts : List Ty}, Ty.AllReadable ts → ∀ {tokens : List Token} {t : Ty},
    Reads tokens t → ∀ rest : List Token,
      ReadsArgs (tokens ++ (Ty.moreTokens ts ++ .closeAngle :: rest)) (t :: ts) rest
  | [], _, _, _, h, _ => .last (h.type ⟨nofun, nofun⟩)
  | u :: us, hus, tokens, t, h, rest => by
      have hmore := readsArgs_tokens hus.2 (reads_tokens hus.1) rest
      have hfirst : ReadsType
          (tokens ++ .comma :: (u.tokens ++ (Ty.moreTokens us ++ .closeAngle :: rest))) t _ :=
        h.type ⟨nofun, nofun⟩
      simpa [Ty.moreTokens] using ReadsArgs.more hfirst hmore

end

end Derivations

end Signature

namespace Ty

/-- What is read from a text is readable. -/
theorem readable_of_parse {source : String} {t : Ty} (h : parse source = .ok t) :
    t.Readable := by
  rw [parse] at h
  split at h
  · cases h
  · rename_i tokens hscan
    cases hread : readAll tokens with
    | error e =>
        rw [hread] at h
        cases h
    | ok u =>
        rw [hread] at h
        cases h
        exact ((readAll_eq_ok.1 hread).readable (allIdents_of_scan hscan)).1

/-- A readable type is read back from its written form. -/
theorem Readable.parse_eq {t : Ty} (h : t.Readable) : parse t.render = .ok t := by
  have hscan : scan t.render.toList = .ok t.tokens := by
    have hscans := scans_render h stops_nil
    rw [Scans, List.append_nil, scan] at hscans
    simpa [Except.map] using hscans
  have hread : readAll t.tokens = .ok t := by
    have hreads : ReadsType (t.tokens ++ []) t [] :=
      (reads_tokens h).type ⟨(Option.some_ne_none _).symm, (Option.some_ne_none _).symm⟩
    rw [List.append_nil] at hreads
    exact readAll_eq_ok.2 hreads
  rw [parse, hscan]
  simp only [hread]
  rfl

/-- What is read from a text is also read from its own written form, so that no two types that can
be read are written alike. These are the types whose names are identifiers and begin as the names
of their kind do. -/
theorem parse_render :
    (∀ source t, parse source = .ok t → parse t.render = .ok t) ∧
      Set.InjOn render {t | ∃ source, parse source = .ok t} ∧
      ∀ t, parse t.render = .ok t ↔ t.Readable := by
  have hround : ∀ source t, parse source = .ok t → parse t.render = .ok t :=
    fun _ _ h => (readable_of_parse h).parse_eq
  refine ⟨hround, ?_, fun t => ⟨readable_of_parse, Readable.parse_eq⟩⟩
  rintro t ⟨source, ht⟩ u ⟨source', hu⟩ heq
  exact Except.ok.inj ((hround _ _ ht).symm.trans (heq ▸ hround _ _ hu))

/-- Too many parentheses and too few spaces, and a function as an argument. -/
theorem parse_render_map :
    let t : Ty := .fn (.fn (.var "a") (.var "b"))
      (.fn (.con "list" [.var "a"]) (.con "list" [.con "Bool" [], .var "b"]))
    parse t.render = .ok t :=
  parse_render.1 "(a->b)->((list<a>)->list<Bool,b>)" _ (by cbv)

end Ty

end Plugboard
