import Mathlib.Data.String.Basic
import Plugboard.Markup.Parse
import Plugboard.Markup.Render

/-!
# Written tags are read back

A tag is written with its names as they are and its values escaped. An escaped value holds neither
quotes nor brackets, so that the quotes around it and the bracket after its tag are found where
they were put. Whatever is between two tags is passed over, as long as no bracket opens in it.
-/

namespace Plugboard.Markup

/-- A name made of letters. -/
structure IsWord (cs : List Char) : Prop where
  nonempty : cs ≠ []
  alpha : ∀ c ∈ cs, c.isAlpha = true

/-- Values may be anything. -/
structure WordKeys (attrs : List (String × String)) : Prop where
  isWord : ∀ a ∈ attrs, IsWord a.1.toList
  nodup : (attrs.map fun a => a.1.toList).Nodup

namespace Tag

/-- The text of a tag, with its brackets. -/
def text : Tag → List Char
  | .opening name attrs => '<' :: (name.toList ++ ((renderAttrs attrs).toList ++ ['>']))
  | .selfClosing name attrs => '<' :: (name.toList ++ ((renderAttrs attrs).toList ++ ['/', '>']))
  | .closing name => '<' :: '/' :: (name ++ ['>'])

/-- All names in the tag are words. -/
def Plain : Tag → Prop
  | .opening name attrs | .selfClosing name attrs => IsWord name.toList ∧ WordKeys attrs
  | .closing name => IsWord name

end Tag

variable {c d quote : Char} {cs rest body name tail gap : List Char} {key value : String}
  {attrs : List (String × String)}

theorem ne_of_isAlpha (hc : c.isAlpha = true) (hd : d.isAlpha = false) : c ≠ d := by
  rintro rfl
  simp [hc] at hd

theorem not_isSpace_of_isAlpha (hc : c.isAlpha = true) : isSpace c = false := by
  simp [isSpace, ne_of_isAlpha hc (d := ' ') rfl, ne_of_isAlpha hc (d := '\t') rfl,
    ne_of_isAlpha hc (d := '\r') rfl, ne_of_isAlpha hc (d := '\n') rfl]

theorem IsWord.of_all (hne : name ≠ []) (h : name.all Char.isAlpha = true) : IsWord name :=
  ⟨hne, List.all_eq_true.1 h⟩

theorem IsWord.exists_cons (h : IsWord name) :
    ∃ c cs, name = c :: cs ∧ c.isAlpha = true ∧ ∀ d ∈ cs, d.isAlpha = true := by
  cases name with
  | nil => exact (h.nonempty rfl).elim
  | cons c cs => exact ⟨c, cs, rfl, List.forall_mem_cons.1 h.alpha⟩

theorem IsWord.notMem (h : IsWord name) (hd : d.isAlpha = false) : d ∉ name :=
  fun hmem => ne_of_isAlpha (h.alpha d hmem) hd rfl

theorem IsWord.not_isSpace (h : IsWord name) : ∀ c ∈ name, (! isSpace c) = true :=
  fun c hc => by simp [not_isSpace_of_isAlpha (h.alpha c hc)]

section Values

theorem unescapeFrom_escapeChar (c : Char) (rest : List Char) :
    unescapeFrom none (escapeChar c ++ rest) = (unescapeFrom none rest).map (c :: ·) := by
  unfold escapeChar
  split
  · simp [unescapeFrom, reference?]
  · simp [unescapeFrom, reference?]
  · simp [unescapeFrom, reference?]
  · simp [unescapeFrom, reference?]
  · simp [unescapeFrom, reference?]
  · rename_i hamp _ _
    rw [List.singleton_append, unescapeFrom, if_neg hamp]

/-- A written value is read back. -/
theorem unescape_escape (value : List Char) : unescape (escape value) = some value := by
  unfold unescape escape
  induction value with
  | nil => rfl
  | cons c value ih => rw [List.flatMap_cons, unescapeFrom_escapeChar, ih, Option.map_some]

theorem notMem_escapeChar (hc : c = '"' ∨ c = '\'' ∨ c = '<' ∨ c = '>') (d : Char) :
    c ∉ escapeChar d := by
  unfold escapeChar
  split <;> rcases hc with rfl | rfl | rfl | rfl <;> simp_all [eq_comm]

/-- Neither quotes nor brackets are left in a written value. -/
theorem notMem_escape (hc : c = '"' ∨ c = '\'' ∨ c = '<' ∨ c = '>') (value : List Char) :
    c ∉ escape value := fun hmem =>
  let ⟨d, _, hd⟩ := List.mem_flatMap.1 hmem
  notMem_escapeChar hc d hd

/-- What is up to the next quote is read. -/
theorem cutQuoted_append (h : quote ∉ cs) (rest : List Char) :
    ∃ hlt, cutQuoted quote (cs ++ quote :: rest) = some (cs, ⟨rest, hlt⟩) := by
  induction cs with
  | nil => exact ⟨_, if_pos rfl⟩
  | cons c cs ih =>
      obtain ⟨hc, hcs⟩ := List.ne_and_not_mem_of_not_mem_cons h
      obtain ⟨hlt, ih⟩ := ih hcs
      refine ⟨Nat.lt_succ_of_lt hlt, (if_neg hc.symm).trans ?_⟩
      change (cutQuoted quote (cs ++ quote :: rest)).map _ = _
      rw [ih]
      rfl

end Values

section Attributes

theorem renderAttrs_nil : (renderAttrs []).toList = [] := rfl

theorem renderAttrs_cons : (renderAttrs ((key, value) :: attrs)).toList =
    ' ' :: (key.toList ++ '=' :: '"' :: (escape value.toList ++
      '"' :: (renderAttrs attrs).toList)) := by
  simp [renderAttrs, String.join_cons]

/-- Reading takes one written attribute off the front. -/
theorem readAttrs_append {seen : List (List Char)} (hword : IsWord name) (hunseen : name ∉ seen)
    (value rest : List Char) :
    readAttrs seen (' ' :: (name ++ '=' :: '"' :: (escape value ++ '"' :: rest))) =
      (readAttrs (name :: seen) rest).map ((String.ofList name, String.ofList value) :: ·) := by
  obtain ⟨k, ks, rfl, hk, hks⟩ := hword.exists_cons
  have hspaces : (' ' :: k :: (ks ++ '=' :: '"' :: (escape value ++ '"' :: rest))).dropWhile
      isSpace = k :: (ks ++ '=' :: '"' :: (escape value ++ '"' :: rest)) := by
    rw [List.dropWhile_cons_of_pos rfl,
      List.dropWhile_cons_of_neg (by simp [not_isSpace_of_isAlpha hk])]
  have hinKey : ∀ c ∈ ks, (! (c == '=' || isSpace c)) = true := fun c hc => by
    simp [not_isSpace_of_isAlpha (hks c hc), ne_of_isAlpha (hks c hc) (d := '=') rfl]
  have htake : ∀ l, (ks ++ '=' :: l).takeWhile (fun c => ! (c == '=' || isSpace c)) = ks :=
    fun l => by rw [List.takeWhile_append_of_pos hinKey]; simp
  have hdrop : ∀ l, (ks ++ '=' :: l).dropWhile (fun c => ! (c == '=' || isSpace c)) = '=' :: l :=
    fun l => by rw [List.dropWhile_append_of_pos hinKey]; simp
  obtain ⟨hlt, hcut⟩ :=
    cutQuoted_append (notMem_escape (c := '"') (.inl rfl) value) rest
  -- of the reader's branches only the one without an error is left
  rw [readAttrs]
  split
  · rename_i h
    cases h.symm.trans hspaces
  · rename_i k' afterKey h
    obtain ⟨rfl, rfl⟩ := List.cons.inj (h.symm.trans hspaces)
    simp only [htake]
    split
    · rename_i afterEq h
      rw [hdrop, List.dropWhile_cons_of_neg (by simp [isSpace])] at h
      cases h
      rw [if_neg (by simpa using hunseen)]
      split
      · rename_i q afterQuote h
        rw [List.dropWhile_cons_of_neg (by simp [isSpace])] at h
        cases h
        rw [if_pos (.inl rfl), hcut]
        simp only [unescape_escape]
        cases readAttrs ((k' :: ks) :: seen) rest <;> rfl
      · rename_i h
        rw [List.dropWhile_cons_of_neg (by simp [isSpace])] at h
        cases h
    · rename_i h
      rw [hdrop, List.dropWhile_cons_of_neg (by simp [isSpace])] at h
      exact (h _ rfl).elim

/-- Written attributes are read back, if their keys have not been seen before. -/
theorem readAttrs_renderAttrs (seen : List (List Char)) (h : WordKeys attrs)
    (hseen : ∀ a ∈ attrs, a.1.toList ∉ seen) :
    readAttrs seen (renderAttrs attrs).toList = .ok attrs := by
  induction attrs generalizing seen with
  | nil =>
      rw [renderAttrs_nil, readAttrs]
      rfl
  | cons a attrs ih =>
      obtain ⟨key, value⟩ := a
      obtain ⟨hword, hwords⟩ := List.forall_mem_cons.1 h.isWord
      obtain ⟨hkey, hkeys⟩ := List.nodup_cons.1 h.nodup
      obtain ⟨hunseen, hseen⟩ := List.forall_mem_cons.1 hseen
      have hrest := ih (key.toList :: seen) ⟨hwords, hkeys⟩ fun a ha hmem => by
        rcases List.mem_cons.1 hmem with heq | hmem
        · exact hkey (List.mem_map.2 ⟨a, ha, heq⟩)
        · exact hseen a ha hmem
      rw [renderAttrs_cons, readAttrs_append hword hunseen, hrest]
      simp [Except.map]

end Attributes

section Tags

/-- The quote that is open after a character. -/
def quoteAfter (open? : Option Char) (c : Char) : Option Char :=
  match open? with
  | some q => if c = q then none else some q
  | none => if c = '"' ∨ c = '\'' then some c else none

theorem cutTag_cons (open? : Option Char) (c : Char) (cs : List Char) :
    cutTag open? (c :: cs) =
      if c = '>' ∧ open? = none then some ([], .tail c cs)
      else (cutTag (quoteAfter open? c) cs).map fun (body, rest) => (c :: body, rest.later c) := by
  rw [cutTag.eq_def]
  rfl

/-- The text up to the next closing bracket outside quotes is `body`. -/
def Cuts (open? : Option Char) (cs body tail : List Char) : Prop :=
  ∃ hlt, cutTag open? cs = some (body, ⟨tail, hlt⟩)

theorem Cuts.bracket (tail : List Char) : Cuts none ('>' :: tail) [] tail :=
  ⟨Nat.lt_succ_self _, by rw [cutTag_cons]; exact if_pos ⟨rfl, rfl⟩⟩

theorem Cuts.cons {open? next : Option Char} (hnext : quoteAfter open? c = next)
    (hc : ¬ (c = '>' ∧ open? = none)) (h : Cuts next cs body tail) :
    Cuts open? (c :: cs) (c :: body) tail := by
  obtain ⟨hlt, h⟩ := h
  refine ⟨Nat.lt_succ_of_lt hlt, ?_⟩
  rw [cutTag_cons, if_neg hc, hnext, h]
  rfl

/-- Text without quotes and brackets is taken as it is. -/
theorem Cuts.append_plain (hcs : ∀ c ∈ cs, c ≠ '>' ∧ c ≠ '"' ∧ c ≠ '\'')
    (h : Cuts none rest body tail) : Cuts none (cs ++ rest) (cs ++ body) tail := by
  induction cs with
  | nil => exact h
  | cons c cs ih =>
      obtain ⟨⟨hbracket, hquote, hquote'⟩, hcs⟩ := List.forall_mem_cons.1 hcs
      exact .cons (if_neg (by simp [hquote, hquote'])) (fun h => hbracket h.1) (ih hcs)

/-- A quoted text is taken as it is. -/
theorem Cuts.append_quoted (hcs : quote ∉ cs) (h : Cuts none rest body tail) :
    Cuts (some quote) (cs ++ quote :: rest) (cs ++ quote :: body) tail := by
  induction cs with
  | nil => exact .cons (if_pos rfl) (by simp) h
  | cons c cs ih =>
      obtain ⟨hc, hcs⟩ := List.ne_and_not_mem_of_not_mem_cons hcs
      exact .cons (if_neg hc.symm) (by simp) (ih hcs)

theorem IsWord.free (h : IsWord name) : ∀ c ∈ name, c ≠ '>' ∧ c ≠ '"' ∧ c ≠ '\'' :=
  fun _ hc => ⟨ne_of_isAlpha (h.alpha _ hc) rfl, ne_of_isAlpha (h.alpha _ hc) rfl,
    ne_of_isAlpha (h.alpha _ hc) rfl⟩

theorem Cuts.append_renderAttrs (hattrs : ∀ a ∈ attrs, IsWord a.1.toList)
    (h : Cuts none rest body tail) :
    Cuts none ((renderAttrs attrs).toList ++ rest) ((renderAttrs attrs).toList ++ body) tail := by
  induction attrs with
  | nil => exact h
  | cons a attrs ih =>
      obtain ⟨hkey, hattrs⟩ := List.forall_mem_cons.1 hattrs
      rw [renderAttrs_cons]
      simp only [List.cons_append, List.append_assoc]
      refine .cons rfl (by simp) (.append_plain hkey.free ?_)
      refine .cons rfl (by simp) (.cons rfl (by simp) ?_)
      exact .append_quoted (notMem_escape (.inl rfl) _) (ih hattrs)

/-- Attributes end with a quote. -/
theorem exists_renderAttrs_eq (attrs : List (String × String)) :
    (renderAttrs attrs).toList = [] ∨ ∃ cs, (renderAttrs attrs).toList = ' ' :: (cs ++ ['"']) := by
  induction attrs with
  | nil => exact .inl renderAttrs_nil
  | cons a attrs ih =>
      obtain ⟨key, value⟩ := a
      refine .inr ?_
      rw [renderAttrs_cons]
      rcases ih with h | ⟨cs, h⟩
      · exact ⟨key.toList ++ '=' :: '"' :: escape value.toList, by simp [h]⟩
      · exact ⟨key.toList ++ '=' :: '"' :: (escape value.toList ++ '"' :: ' ' :: cs), by simp [h]⟩

/-- No slash ends the names and values of a tag. -/
theorem getLast?_ne_slash (hname : IsWord name) (attrs : List (String × String)) :
    (name ++ (renderAttrs attrs).toList).getLast? ≠ some '/' := by
  rcases exists_renderAttrs_eq attrs with h | ⟨cs, h⟩
  · rw [h, List.append_nil]
    exact fun hlast => hname.notMem (d := '/') rfl (List.mem_of_getLast? hlast)
  · rw [h, ← List.cons_append, ← List.append_assoc, List.getLast?_concat]
    simp

/-- The name goes up to the attributes. -/
theorem takeWhile_name (hname : IsWord name) (attrs : List (String × String)) :
    (name ++ (renderAttrs attrs).toList).takeWhile (fun c => ! isSpace c) = name := by
  rw [List.takeWhile_append_of_pos hname.not_isSpace]
  rcases exists_renderAttrs_eq attrs with h | ⟨cs, h⟩ <;> simp [h, isSpace]

theorem dropWhile_name (hname : IsWord name) (attrs : List (String × String)) :
    (name ++ (renderAttrs attrs).toList).dropWhile (fun c => ! isSpace c) =
      (renderAttrs attrs).toList := by
  rw [List.dropWhile_append_of_pos hname.not_isSpace]
  rcases exists_renderAttrs_eq attrs with h | ⟨cs, h⟩ <;> simp [h, isSpace]

theorem tagOfText_opening {name : String} (hname : IsWord name.toList) (h : WordKeys attrs) :
    tagOfText (name.toList ++ (renderAttrs attrs).toList) = .ok (.opening name attrs) := by
  have hopen : ((name.toList ++ (renderAttrs attrs).toList).getLast? == some '/') = false := by
    simpa using getLast?_ne_slash hname attrs
  simp only [tagOfText, hopen, Bool.false_eq_true, if_false, takeWhile_name hname,
    dropWhile_name hname, readAttrs_renderAttrs [] h fun _ _ => List.not_mem_nil,
    String.ofList_toList]

theorem tagOfText_selfClosing {name : String} (hname : IsWord name.toList) (h : WordKeys attrs) :
    tagOfText (name.toList ++ ((renderAttrs attrs).toList ++ ['/'])) =
      .ok (.selfClosing name attrs) := by
  rw [← List.append_assoc]
  simp only [tagOfText, List.getLast?_concat, beq_self_eq_true, if_true, List.dropLast_concat,
    takeWhile_name hname, dropWhile_name hname, String.ofList_toList,
    readAttrs_renderAttrs [] h fun _ _ => List.not_mem_nil]

theorem cutFirst_append (h : '>' ∉ cs) (rest : List Char) :
    (cutFirst (cs ++ '>' :: rest)).1 = cs ∧ (cutFirst (cs ++ '>' :: rest)).2.1 = rest := by
  induction cs with
  | nil => exact ⟨rfl, rfl⟩
  | cons c cs ih =>
      obtain ⟨hc, hcs⟩ := List.ne_and_not_mem_of_not_mem_cons h
      simp [cutFirst, hc.symm, ih hcs]

theorem trimEnd_word (h : IsWord name) : trimEnd name = name := by
  have hdrop : name.reverse.dropWhile isSpace = name.reverse := by
    cases hname : name.reverse with
    | nil => rfl
    | cons c cs =>
        have hc : c ∈ name := List.mem_reverse.1 (hname ▸ List.mem_cons_self)
        exact List.dropWhile_cons_of_neg (by simp [not_isSpace_of_isAlpha (h.alpha c hc)])
  rw [trimEnd, hdrop, List.reverse_reverse, ite_self]

theorem dropWhile_gap (hgap : '<' ∉ gap) (cs : List Char) :
    (gap ++ '<' :: cs).dropWhile (· ≠ '<') = '<' :: cs := by
  rw [List.dropWhile_append_of_pos, List.dropWhile_cons_of_neg (by simp)]
  intro c hc
  exact decide_eq_true fun heq => hgap (heq ▸ hc)

/-- The next tag of `cs` is `tag`, and `rest` follows it. -/
def Yields (cs : List Char) (tag : Tag) (rest : List Char) : Prop :=
  ∃ hlt, nextTag cs = .ok (some (tag, ⟨rest, hlt⟩))

theorem Yields.of_cuts {tag : Tag} (hgap : '<' ∉ gap) (hname : IsWord name)
    (hcuts : Cuts none (name ++ cs) body rest) (htag : tagOfText body = .ok tag) :
    Yields (gap ++ '<' :: (name ++ cs)) tag rest := by
  obtain ⟨c, name, rfl, hc, -⟩ := hname.exists_cons
  obtain ⟨hlt, hcuts⟩ := hcuts
  refine ⟨by simp at hlt ⊢; omega, ?_⟩
  rw [nextTag]
  split
  · rename_i h
    cases h.symm.trans (dropWhile_gap hgap _)
  · rename_i h
    cases h.symm.trans (dropWhile_gap hgap _)
  · rename_i h
    cases h.symm.trans (dropWhile_gap hgap _)
    have hcuts : cutTag none (c :: name.append cs) = some (body, ⟨rest, hlt⟩) := hcuts
    simp only [if_neg (ne_of_isAlpha hc (d := '!') rfl), if_neg (ne_of_isAlpha hc (d := '?') rfl),
      if_neg (ne_of_isAlpha hc (d := '/') rfl), hcuts, htag]

theorem Yields.closing (hgap : '<' ∉ gap) (hname : IsWord name) (rest : List Char) :
    Yields (gap ++ '<' :: '/' :: (name ++ '>' :: rest)) (.closing name) rest := by
  obtain ⟨hbody, hafter⟩ := cutFirst_append (hname.notMem (d := '>') rfl) rest
  refine ⟨by simp; omega, ?_⟩
  rw [nextTag]
  split
  · rename_i h
    cases h.symm.trans (dropWhile_gap hgap _)
  · rename_i h
    cases h.symm.trans (dropWhile_gap hgap _)
  · rename_i h
    cases h.symm.trans (dropWhile_gap hgap _)
    simp [hbody, hafter, trimEnd_word hname]

/-- The text before a tag is passed over and the tag is read. -/
theorem Tag.Plain.yields {tag : Tag} (htag : tag.Plain) (hgap : '<' ∉ gap) (rest : List Char) :
    Yields (gap ++ (tag.text ++ rest)) tag rest := by
  cases tag with
  | opening name attrs =>
      obtain ⟨hname, hattrs⟩ := htag
      have hcuts : Cuts none (name.toList ++ ((renderAttrs attrs).toList ++ '>' :: rest))
          (name.toList ++ ((renderAttrs attrs).toList ++ [])) rest :=
        .append_plain hname.free (.append_renderAttrs hattrs.isWord (.bracket rest))
      rw [List.append_nil] at hcuts
      simpa [Tag.text] using Yields.of_cuts hgap hname hcuts (tagOfText_opening hname hattrs)
  | selfClosing name attrs =>
      obtain ⟨hname, hattrs⟩ := htag
      have hcuts : Cuts none (name.toList ++ ((renderAttrs attrs).toList ++ '/' :: '>' :: rest))
          (name.toList ++ ((renderAttrs attrs).toList ++ ['/'])) rest :=
        .append_plain hname.free
          (.append_renderAttrs hattrs.isWord (.cons rfl (by simp) (.bracket rest)))
      simpa [Tag.text] using Yields.of_cuts hgap hname hcuts (tagOfText_selfClosing hname hattrs)
  | closing name => simpa [Tag.text] using Yields.closing hgap htag rest

end Tags

end Plugboard.Markup
