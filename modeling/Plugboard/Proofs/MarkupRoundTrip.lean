import Mathlib
import Plugboard.Proofs.TagReading
import Plugboard.Ty.Markup

/-!
# Types survive being written as markup

The written form of a type is a sequence of tags. The same tags with other text around them are
read as the same type: the element is built up from its tags, and what stands between them is not
looked at, as long as no bracket opens in it.
-/

namespace Plugboard

namespace Markup

mutual

/-- The tags of an element in document order. -/
def Element.tags : Element → List Tag
  | .node name attrs [] => [.selfClosing name attrs]
  | .node name attrs (child :: children) =>
      .opening name attrs :: (child.tags ++ (allTags children ++ [.closing name.toList]))

def allTags : List Element → List Tag
  | [] => []
  | e :: es => e.tags ++ allTags es

end

/-- A document made of these tags, each with some text before it, and more text at the end. No
bracket opens in the text. -/
inductive Spaced : List Tag → List Char → Prop where
  | nil {gap : List Char} (hgap : '<' ∉ gap) : Spaced [] gap
  | cons {gap : List Char} {tag : Tag} {tags : List Tag} {cs : List Char} (hgap : '<' ∉ gap)
      (h : Spaced tags cs) : Spaced (tag :: tags) (gap ++ (tag.text ++ cs))

mutual

/-- The written form is the tags, with nothing between them. -/
theorem Element.render_toList : ∀ e : Element, e.render.toList = e.tags.flatMap Tag.text
  | .node name attrs [] => by simp [Element.render, Element.tags, Tag.text]
  | .node name attrs (child :: children) => by
      simp [Element.render, Element.tags, Tag.text, child.render_toList, renderAll_toList children]

theorem renderAll_toList : ∀ es : List Element,
    (renderAll es).toList = (allTags es).flatMap Tag.text
  | [] => rfl
  | e :: es => by simp [renderAll, allTags, e.render_toList, renderAll_toList es]

end

theorem spaced_flatMap_text (tags : List Tag) : Spaced tags (tags.flatMap Tag.text) := by
  induction tags with
  | nil => exact .nil List.not_mem_nil
  | cons tag tags ih => exact @Spaced.cons [] tag tags _ List.not_mem_nil ih

section Reading

variable {tag : Tag} {tags : List Tag} {cs : List Char} {stack : List Open} {o : Open}

/-- The next tag is the first one. -/
theorem Spaced.exists_yields (h : Spaced (tag :: tags) cs) (htag : tag.Plain) :
    ∃ rest, Yields cs tag rest ∧ Spaced tags rest := by
  cases h with
  | cons hgap h => exact ⟨_, htag.yields hgap _, h⟩

/-- Reads on after a finished element. -/
def proceed (e : Element) (stack : List Open) (rest : List Char) : Except ReadError Element :=
  match finish e stack with
  | .inl e => .ok e
  | .inr stack => readElement stack rest

theorem readElement_opening {name : String} {attrs : List (String × String)} {rest : List Char}
    (h : Yields cs (.opening name attrs) rest) :
    readElement stack cs = readElement (⟨name, attrs, []⟩ :: stack) rest := by
  obtain ⟨hlt, h⟩ := h
  rw [readElement, h]

theorem readElement_selfClosing {name : String} {attrs : List (String × String)}
    {rest : List Char} (h : Yields cs (.selfClosing name attrs) rest) :
    readElement stack cs = proceed (.node name attrs []) stack rest := by
  obtain ⟨hlt, h⟩ := h
  rw [readElement, h]
  rfl

theorem readElement_closing {rest : List Char} (h : Yields cs (.closing o.name.toList) rest) :
    readElement (o :: stack) cs =
      proceed (.node o.name o.attrs o.children.reverse) stack rest := by
  obtain ⟨hlt, h⟩ := h
  rw [readElement, h]
  simp only [if_true]
  rfl

mutual

/-- All tags of an element can be read back. -/
def Element.Plain : Element → Prop
  | .node name attrs children => IsWord name.toList ∧ WordKeys attrs ∧ AllPlain children

def AllPlain : List Element → Prop
  | [] => True
  | e :: es => e.Plain ∧ AllPlain es

end

mutual

/-- The tags of an element are read as that element, whatever is open around it. -/
theorem Element.Plain.exists_readElement_eq : ∀ {e : Element} {tags : List Tag} {cs : List Char}
    (_ : e.Plain) (_ : Spaced (e.tags ++ tags) cs) (stack : List Open),
    ∃ rest, Spaced tags rest ∧ readElement stack cs = proceed e stack rest
  | .node name attrs [], tags, cs, he, h, stack => by
      obtain ⟨rest, hyields, hrest⟩ := h.exists_yields ⟨he.1, he.2.1⟩
      exact ⟨rest, hrest, readElement_selfClosing hyields⟩
  | .node name attrs (child :: children), tags, cs, he, h, stack => by
      obtain ⟨hname, hattrs, hchild, hchildren⟩ := he
      rw [Element.tags, List.cons_append] at h
      obtain ⟨inner, hyields, h⟩ := h.exists_yields ⟨hname, hattrs⟩
      rw [List.append_assoc] at h
      -- the first child is added to the open element, then the others, and its own tag closes it
      obtain ⟨mid, h, hfirst⟩ := hchild.exists_readElement_eq h (⟨name, attrs, []⟩ :: stack)
      rw [List.append_assoc] at h
      obtain ⟨last, h, hothers⟩ := AllPlain.exists_readElement_eq hchildren h
        ⟨name, attrs, [child]⟩ stack
      have hclosing : (Tag.closing name.toList).Plain := hname
      obtain ⟨rest, hend, hrest⟩ := h.exists_yields hclosing
      refine ⟨rest, hrest, (readElement_opening hyields).trans (hfirst.trans (hothers.trans ?_))⟩
      rw [readElement_closing hend]
      simp

/-- Elements in a row become the next children of the innermost open element. -/
theorem AllPlain.exists_readElement_eq : ∀ {es : List Element} {tags : List Tag} {cs : List Char}
    (_ : AllPlain es) (_ : Spaced (allTags es ++ tags) cs) (o : Open) (stack : List Open),
    ∃ rest, Spaced tags rest ∧ readElement (o :: stack) cs =
      readElement ({ o with children := es.reverse ++ o.children } :: stack) rest
  | [], tags, cs, _, h, o, stack => ⟨cs, h, rfl⟩
  | e :: es, tags, cs, hall, h, o, stack => by
      rw [allTags, List.append_assoc] at h
      obtain ⟨mid, h, hfirst⟩ := hall.1.exists_readElement_eq h (o :: stack)
      obtain ⟨rest, h, hothers⟩ := AllPlain.exists_readElement_eq hall.2 h
        { o with children := e :: o.children } stack
      refine ⟨rest, h, hfirst.trans (hothers.trans ?_)⟩
      simp

end

/-- An element is read back from its tags. -/
theorem Element.Plain.parse_eq {e : Element} (he : e.Plain) {document : String}
    (h : Spaced e.tags document.toList) : Element.parse document = .ok e := by
  rw [← List.append_nil e.tags] at h
  obtain ⟨rest, -, hread⟩ := he.exists_readElement_eq h []
  exact hread

end Reading

end Markup

namespace Ty

open Markup

theorem isWord_type : IsWord "type".toList := .of_all (by decide) rfl

theorem wordKeys_named {key : String} (hkey : IsWord key.toList)
    (hne : "type".toList ≠ key.toList) (shape value : String) :
    WordKeys [("type", shape), (key, value)] :=
  ⟨by simp only [List.forall_mem_cons]; exact ⟨isWord_type, hkey, List.forall_mem_nil _⟩,
    by simpa using hne⟩

mutual

theorem plain_toElement : ∀ t : Ty, t.toElement.Plain
  | .var _ => ⟨isWord_type, wordKeys_named (.of_all (by decide) rfl) (by decide) _ _, trivial⟩
  | .con _ ts =>
      ⟨isWord_type, wordKeys_named (.of_all (by decide) rfl) (by decide) _ _,
        allPlain_toElements ts⟩
  | .fn a r =>
      ⟨isWord_type, ⟨by simpa using isWord_type, by simp⟩, a.plain_toElement, r.plain_toElement,
        trivial⟩

theorem allPlain_toElements : ∀ ts : List Ty, AllPlain (toElements ts)
  | [] => trivial
  | t :: ts => ⟨t.plain_toElement, allPlain_toElements ts⟩

end

mutual

/-- A type is read back from its element. -/
theorem ofElement_toElement : ∀ t : Ty, ofElement t.toElement = .ok t
  | .var v => by simp [toElement, ofElement, requireAttr, List.lookup, Except.map]
  | .con c ts => by
      rw [toElement, ofElement.eq_def]
      simp [requireAttr, List.lookup, Except.map, ofElements_toElements ts]
  | .fn a r => by
      simp [toElement, ofElement, requireAttr, List.lookup, Except.map, a.ofElement_toElement,
        r.ofElement_toElement]

theorem ofElements_toElements : ∀ ts : List Ty, ofElements (toElements ts) = .ok ts
  | [] => rfl
  | t :: ts => by
      simp [toElements, ofElements, Except.map, t.ofElement_toElement, ofElements_toElements ts]

end

theorem ofMarkup_eq_of_spaced {t : Ty} {document : String}
    (h : Spaced t.toElement.tags document.toList) : ofMarkup document = .ok t := by
  rw [ofMarkup, t.plain_toElement.parse_eq h]
  simp only [ofElement_toElement]
  rfl

theorem ofMarkup_toMarkup (t : Ty) : ofMarkup t.toMarkup = .ok t :=
  ofMarkup_eq_of_spaced (t.toElement.render_toList ▸ spaced_flatMap_text _)

/-- Different types are written differently. -/
theorem toMarkup_injective : Function.Injective toMarkup := fun t u h =>
  Except.ok.inj ((ofMarkup_toMarkup t).symm.trans (h ▸ ofMarkup_toMarkup u))

/-- The markup of a type is its tags with nothing between them, and the same tags with any text
around them in which no bracket opens are read as that type. -/
theorem ofMarkup_spaced (t : Ty) :
    t.toMarkup.toList = t.toElement.tags.flatMap Tag.text ∧
      ∀ document : String, Spaced t.toElement.tags document.toList →
        ofMarkup document = .ok t :=
  ⟨t.toElement.render_toList, fun _ h => ofMarkup_eq_of_spaced h⟩

/-- A list of a variable without a name, with a bracket and a quote in the name of the list. -/
theorem ofMarkup_spaced_list :
    ofMarkup ("> <type type=\"literal\" name=\"li&lt;st&quot;\">\n  " ++
      "<type type=\"var\" var=\"\"/>\n</type> end") = .ok (.con "li<st\"" [.var ""]) :=
  (ofMarkup_spaced (.con "li<st\"" [.var ""])).2 _
    (@Spaced.cons ['>', ' '] _ _ _ (by decide) (@Spaced.cons ['\n', ' ', ' '] _ _ _ (by decide)
      (@Spaced.cons ['\n'] _ _ _ (by decide) (@Spaced.nil [' ', 'e', 'n', 'd'] (by decide)))))

end Ty

end Plugboard
