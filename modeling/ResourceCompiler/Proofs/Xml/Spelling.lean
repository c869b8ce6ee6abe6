import ResourceCompiler.Proofs.Xml.Writing

/-!
# Documents laid out in lines

A generated document is laid out in lines: each line holds an element behind blanks, and an element
either holds a text or, between its tags, lines of its own. Such a document reads as these elements,
with nothing but blanks around them.

## Main definitions

* `Xml.Spells`: the nodes that a text spells out.
* `Xml.Stands`, `Xml.Lines`: an element as it stands in a document, and lines of elements.
* `Xml.Preamble`: what may stand in front of the root.

## Main statements

* `Spells.scans`, `take_allTokens`: the tokens of nodes, and what they add to an open element.
* `stands_textElement`, `exists_stands_lines`: an element with a text, and one with lines.
* `read_laidOut`: a document is read as the element that stands in it.
-/

namespace ResourceCompiler.Xml

/-! ### Nodes as they are spelled -/

/-- An element with what stands between its tags. -/
def tagged (name : String) (attributes : List (String × String)) (content : List Char) :
    List Char :=
  '<' :: (name.toList ++ (attributes.flatMap attributeText ++ '>' ::
    (content ++ '<' :: '/' :: (name.toList ++ ['>']))))

/-- An element with one label, whose value needs no references. -/
theorem tagged_singleton (name label : String) {value : String}
    (hvalue : ∀ x ∈ value.toList, isNameChar x = true) (content : List Char) :
    tagged name [(label, value)] content =
      '<' :: (name.toList ++ ' ' :: (label.toList ++ '=' :: '"' :: (value.toList ++ '"' :: '>' ::
        (content ++ '<' :: '/' :: (name.toList ++ ['>']))))) := by
  rw [tagged, List.flatMap_singleton, attributeText, escape_of_isNameChar hvalue]
  simp only [List.cons_append, List.append_assoc, List.nil_append]

/-- Whether a text spells out nodes, with no two texts next to each other. -/
inductive Spells : List Char → List Node → Prop
  | nil : Spells [] []
  | text {part s rest : List Char} {ns : List Node} (hne : part ≠ []) (hpart : '<' ∉ part)
      (hread : unescape part = some s) (hrest : ∀ x ∈ rest.head?, x = '<') :
      Spells rest ns → Spells (part ++ rest) (.text (String.ofList s) :: ns)
  | element {name : String} {attributes : List (String × String)} {content rest : List Char}
      {children ns : List Node} (hname : IsTagName name.toList) (hattributes : WellNamed attributes) :
      Spells content children → Spells rest ns →
      Spells (tagged name attributes content ++ rest) (.element name attributes children :: ns)

mutual

/-- The tokens of a node. -/
def Node.tokens : Node → List Token
  | .text s => [.text s]
  | .element name attributes children =>
    .start name attributes :: (Node.allTokens children ++ [.close name])

def Node.allTokens : List Node → List Token
  | [] => []
  | n :: rest => n.tokens ++ Node.allTokens rest

end

variable {cs rest blanks : List Char} {ns : List Node} {tokens : List Token} {name : String}
  {attributes : List (String × String)} {e : Element} {es fs : List Element}

/-- An element has its tokens if what stands between its tags has those of its children. -/
theorem scans_tagged (hname : IsTagName name.toList) (hattributes : WellNamed attributes)
    {content : List Char} {children : List Node}
    (hcontent : ∀ {rest tokens}, (∀ x ∈ rest.head?, x = '<') → Scans rest tokens →
      Scans (content ++ rest) (Node.allTokens children ++ tokens)) (hscans : Scans rest tokens) :
    Scans (tagged name attributes content ++ rest)
      ((Node.element name attributes children).tokens ++ tokens) := by
  have hend := Scans.endTag name.toList hname.2 hscans
  have htag := Scans.startTag hname hattributes (hcontent (Scans.head_markup _) hend)
  rw [String.ofList_toList] at htag
  simpa only [tagged, Node.tokens, List.cons_append, List.append_assoc, List.nil_append] using htag

/-- **A text has the tokens of the nodes that it spells out**, if markup follows it. -/
theorem Spells.scans (h : Spells cs ns) (hrest : ∀ x ∈ rest.head?, x = '<')
    (hscans : Scans rest tokens) : Scans (cs ++ rest) (Node.allTokens ns ++ tokens) := by
  induction h generalizing rest tokens with
  | nil => exact hscans
  | @text part s inner ns hne hpart hread hinner _ ih =>
    have hhead : ∀ x ∈ (inner ++ rest).head?, x = '<' := by
      cases inner with
      | nil => exact hrest
      | cons c inner => exact hinner
    have htext := Scans.text hne hpart hhead (ih hrest hscans)
    rw [Token.ofText, hread] at htext
    rw [List.append_assoc]
    exact htext
  | @element name attributes content inner children ns hname hattributes _ _ ihcontent ih =>
    have htag := scans_tagged hname hattributes (fun hrest => ihcontent hrest) (ih hrest hscans)
    rw [Node.allTokens, List.append_assoc, List.append_assoc]
    exact htag

theorem foldlM_take_append {o q : Open} {tokens rest : List Token}
    (h : tokens.foldlM Open.take o = .ok q) :
    (tokens ++ rest).foldlM Open.take o = rest.foldlM Open.take q := by
  rw [List.foldlM_append, h]
  rfl

mutual

/-- The tokens of a node add it to the innermost open element. -/
theorem take_tokens : (n : Node) → (e : Element) → (below : List Element) →
    (root : Option Element) →
      n.tokens.foldlM Open.take ⟨e :: below, root⟩ = .ok ⟨Open.withChild e n :: below, root⟩
  | .text _, _, _, _ => rfl
  | .element name attributes children, e, below, root => by
    have hchildren := take_allTokens children ⟨name, attributes, []⟩ (e :: below) root
    rw [List.nil_append] at hchildren
    rw [Node.tokens, foldlM_take_cons rfl, foldlM_take_append hchildren]
    exact (foldlM_take_cons (take_close ⟨name, attributes, children⟩ (e :: below) root)).trans rfl

theorem take_allTokens : (ns : List Node) → (e : Element) → (below : List Element) →
    (root : Option Element) → (Node.allTokens ns).foldlM Open.take ⟨e :: below, root⟩ =
      .ok ⟨⟨e.name, e.attributes, e.children ++ ns⟩ :: below, root⟩
  | [], e, below, root => by
    rw [List.append_nil]
    rfl
  | n :: rest, e, below, root => by
    have hrest := take_allTokens rest (Open.withChild e n) below root
    rw [Open.withChild, List.append_assoc, List.singleton_append] at hrest
    rw [Node.allTokens, foldlM_take_append (take_tokens n e below root)]
    exact hrest

end

/-! ### Elements in lines -/

/-- Whether an element stands in a document as the given text. -/
structure Stands (cs : List Char) (e : Element) : Prop where
  isTagName : IsTagName e.name.toList
  wellNamed : WellNamed e.attributes
  exists_content : ∃ content, cs = tagged e.name e.attributes content ∧ Spells content e.children

theorem Stands.spells (h : Stands cs e) (hrest : Spells rest ns) :
    Spells (cs ++ rest) (e.toNode :: ns) := by
  obtain ⟨content, rfl, hcontent⟩ := h.exists_content
  exact .element h.isTagName h.wellNamed hcontent hrest

theorem Stands.scans (h : Stands cs e) (hscans : Scans rest tokens) :
    Scans (cs ++ rest) (e.toNode.tokens ++ tokens) := by
  obtain ⟨content, rfl, hcontent⟩ := h.exists_content
  exact scans_tagged h.isTagName h.wellNamed (fun hrest => hcontent.scans hrest) hscans

theorem Stands.exists_cons (h : Stands cs e) : ∃ more, cs = '<' :: more := by
  obtain ⟨content, rfl, -⟩ := h.exists_content
  exact ⟨_, rfl⟩

/-- The blanks in front of a line. -/
def indent (depth : Nat) : List Char := List.replicate (4 * depth) ' '

theorem eq_of_mem_indent (depth : Nat) : ∀ x ∈ indent depth, x = ' ' :=
  fun _ hx => List.eq_of_mem_replicate hx

/-- Whether lines hold elements, one in each line behind blanks. -/
inductive Lines : List Char → List Element → Prop
  | nil : Lines [] []
  | cons {indent cs rest : List Char} {e : Element} {es : List Element}
      (hindent : ∀ x ∈ indent, x = ' ') (helement : Stands cs e) :
      Lines rest es → Lines (indent ++ (cs ++ '\n' :: rest)) (e :: es)

theorem Lines.singleton (hblanks : ∀ x ∈ blanks, x = ' ') (h : Stands cs e) :
    Lines (blanks ++ (cs ++ ['\n'])) [e] := .cons hblanks h .nil

theorem Lines.append (h : Lines cs es) (h' : Lines rest fs) : Lines (cs ++ rest) (es ++ fs) := by
  induction h with
  | nil => exact h'
  | cons hindent helement _ ih =>
    rw [List.append_assoc, List.append_assoc, List.cons_append, List.cons_append]
    exact .cons hindent helement ih

/-- Lines of several things are lines of the elements of each. -/
theorem lines_flatMap {α : Type} {line : α → List Char} {element : α → List Element} {as : List α}
    (h : ∀ a ∈ as, Lines (line a) (element a)) : Lines (as.flatMap line) (as.flatMap element) := by
  induction as with
  | nil => exact .nil
  | cons a as ih =>
    obtain ⟨ha, has⟩ := List.forall_mem_cons.1 h
    exact ha.append (ih has)

/-- Lines of several things, each of which gives the line of an element that belongs to it. -/
theorem exists_lines {α : Type} {line : α → List Char} {R : Element → α → Prop} {as : List α}
    (h : ∀ a ∈ as, ∃ e, Lines (line a) [e] ∧ R e a) :
    ∃ es, Lines (as.flatMap line) es ∧ List.Forall₂ R es as := by
  induction as with
  | nil => exact ⟨[], .nil, .nil⟩
  | cons a as ih =>
    obtain ⟨⟨e, he, hR⟩, has⟩ := List.forall_mem_cons.1 h
    obtain ⟨es, hes, hRs⟩ := ih has
    exact ⟨e :: es, he.append hes, .cons hR hRs⟩

/-- Whether all texts among nodes are blank. -/
def Blank (ns : List Node) : Prop := ∀ s, .text s ∈ ns → s.toList.all Text.isBlank = true

theorem unescape_of_not_mem (h : '&' ∉ cs) : unescape cs = some cs := by
  have hread := unescapeFrom_append h []
  rw [List.append_nil] at hread
  exact hread.trans (congrArg some (List.append_nil cs))

/-- A break with blanks behind it is a blank text. -/
theorem Spells.break (hblanks : ∀ x ∈ blanks, x = ' ') (hrest : ∀ x ∈ rest.head?, x = '<')
    (h : Spells rest ns) : Spells ('\n' :: (blanks ++ rest))
      (.text (String.ofList ('\n' :: blanks)) :: ns) := by
  have hne : ∀ c, c ≠ '\n' → c ≠ ' ' → c ∉ '\n' :: blanks := by
    intro c hbreak hspace hmem
    exact (List.mem_cons.1 hmem).elim hbreak fun hmem => hspace (hblanks c hmem)
  exact .text (List.cons_ne_nil _ _) (hne '<' (by decide) (by decide))
    (unescape_of_not_mem (hne '&' (by decide) (by decide))) hrest h

theorem blank_cons (hblanks : ∀ x ∈ blanks, x = ' ') (h : Blank ns) :
    Blank (.text (String.ofList ('\n' :: blanks)) :: ns) := by
  intro s hs
  rcases List.mem_cons.1 hs with heq | hs
  · rw [Node.text.inj heq, String.toList_ofList, List.all_eq_true]
    intro x hx
    rcases List.mem_cons.1 hx with rfl | hx
    · decide
    · rw [hblanks x hx]
      decide
  · exact h s hs

/-- **Lines spell out their elements**, with blank texts around them. -/
theorem Lines.spells (h : Lines cs es) (hblanks : ∀ x ∈ blanks, x = ' ') :
    ∃ ns, Spells ('\n' :: (cs ++ blanks)) ns ∧ ns.filterMap Node.element? = es ∧ Blank ns := by
  induction h with
  | nil =>
    have hbreak := Spells.break hblanks (fun x hx => by cases hx) Spells.nil
    rw [List.append_nil] at hbreak
    exact ⟨_, hbreak, rfl, blank_cons hblanks fun s hs => by cases hs⟩
  | @cons indent cs rest e es hindent helement _ ih =>
    obtain ⟨ns, hns, helements, hblank⟩ := ih
    obtain ⟨more, hmore⟩ := helement.exists_cons
    have hline := helement.spells hns
    have hhead : ∀ x ∈ (cs ++ '\n' :: (rest ++ blanks)).head?, x = '<' := by
      rw [hmore]
      exact Scans.head_markup _
    have hshape : '\n' :: (indent ++ (cs ++ '\n' :: rest) ++ blanks) =
        '\n' :: (indent ++ (cs ++ '\n' :: (rest ++ blanks))) := by
      simp only [List.append_assoc, List.cons_append]
    refine ⟨_, hshape ▸ Spells.break hindent hhead hline, ?_, blank_cons hindent ?_⟩
    · rw [← helements]
      rfl
    · intro s hs
      exact hblank s ((List.mem_cons.1 hs).resolve_left fun heq => by cases heq)

/-! ### Elements with a text or with lines -/

/-- The element of a written text, which is no node if nothing is written of it. -/
def textElement (name : String) (attributes : List (String × String)) (part s : List Char) :
    Element :=
  ⟨name, attributes, if part = [] then [] else [.text (String.ofList s)]⟩

section

variable {part s : List Char}

theorem stands_textElement (hname : IsTagName name.toList) (hattributes : WellNamed attributes)
    (hpart : '<' ∉ part) (hread : unescape part = some s) :
    Stands (tagged name attributes part) (textElement name attributes part s) := by
  refine ⟨hname, hattributes, part, rfl, ?_⟩
  rw [textElement]
  split
  · rename_i hnil
    rw [hnil]
    exact .nil
  · rename_i hne
    have htext := Spells.text hne hpart hread (fun x hx => by cases hx) Spells.nil
    rw [List.append_nil] at htext
    exact htext

theorem elements_textElement (name : String) (attributes : List (String × String))
    (part s : List Char) : (textElement name attributes part s).elements = [] := by
  rw [Element.elements, textElement]
  split
  · rfl
  · rfl

theorem text_textElement (name : String) (attributes : List (String × String))
    (hread : unescape part = some s) :
    (textElement name attributes part s).text = String.ofList s := by
  rw [Element.text, textElement]
  split
  · rename_i hnil
    rw [hnil] at hread
    rw [← Option.some.inj hread]
    rfl
  · rw [Node.allTexts, Node.allTexts, Node.allText, List.append_nil, String.toList_ofList]

end

/-- An element with lines of its own. -/
theorem exists_stands_lines (hname : IsTagName name.toList) (hattributes : WellNamed attributes)
    (h : Lines cs es) (hblanks : ∀ x ∈ blanks, x = ' ') :
    ∃ e, Stands (tagged name attributes ('\n' :: (cs ++ blanks))) e ∧ e.name = name ∧
      e.attributes = attributes ∧ e.elements = es ∧ Blank e.children := by
  obtain ⟨ns, hns, helements, hblank⟩ := h.spells hblanks
  exact ⟨⟨name, attributes, ns⟩, ⟨hname, hattributes, _, rfl, hns⟩, rfl, rfl, helements, hblank⟩

/-! ### Documents -/

/-- Whether lines hold only what is passed over. -/
inductive Preamble : List Char → Prop
  | nil : Preamble []
  | cons {markup rest : List Char}
      (hmarkup : ∀ rest, Token.markup (markup ++ rest) = some (.passedOver, rest)) :
      Preamble rest → Preamble ('<' :: (markup ++ '\n' :: rest))

namespace Preamble

theorem instruction {part : List Char} (hstart : part.head? ≠ some '>')
    (hpart : ¬ ['?', '>'] <:+: part) (h : Preamble cs) :
    Preamble ('<' :: ('?' :: (part ++ ['?', '>']) ++ '\n' :: cs)) := by
  refine .cons (fun rest => ?_) h
  rw [List.cons_append, List.append_assoc]
  exact markup_instruction hstart hpart rest

theorem comment {part : List Char} (hpart : ¬ ['-', '-', '>'] <:+: part) (h : Preamble cs) :
    Preamble ('<' :: ('!' :: '-' :: '-' :: (part ++ ['-', '-', '>']) ++ '\n' :: cs)) := by
  refine .cons (fun rest => ?_) h
  rw [List.cons_append, List.cons_append, List.cons_append, List.append_assoc]
  exact markup_comment hpart rest

theorem doctype {part : List Char} (hopen : '<' ∉ part) (hclose : '>' ∉ part)
    (hname : part.all isSpace = false) (h : Preamble cs) :
    Preamble ('<' :: ('!' :: ("DOCTYPE".toList ++ (part ++ ['>'])) ++ '\n' :: cs)) := by
  refine .cons (fun rest => ?_) h
  rw [List.cons_append, List.append_assoc, List.append_assoc]
  exact markup_doctype hopen hclose hname rest

end Preamble

/-- A break outside of the root leaves nothing behind. -/
theorem take_break (root : Option Element) :
    Open.take ⟨[], root⟩ (.ofText ['\n']) = .ok ⟨[], root⟩ := by
  have hbreak : Token.ofText ['\n'] = .text "\n" := by decide +kernel
  have hblank : "\n".toList.all Text.isBlank = true := by decide
  rw [hbreak, Open.take]
  exact if_pos hblank

/-- The tokens in front of a root leave nothing behind. -/
theorem Preamble.scans (h : Preamble cs) (hrest : ∀ x ∈ rest.head?, x = '<')
    (hscans : Scans rest tokens) : ∃ before, Scans (cs ++ rest) (before ++ tokens) ∧
      before.foldlM Open.take {} = .ok {} := by
  induction h with
  | nil => exact ⟨[], hscans, rfl⟩
  | @cons markup inner hmarkup hinner ih =>
    obtain ⟨before, hbefore, htake⟩ := ih
    have hhead : ∀ x ∈ (inner ++ rest).head?, x = '<' := by
      cases hinner with
      | nil => exact hrest
      | cons _ _ => exact Scans.head_markup _
    have hbreak := Scans.text (List.cons_ne_nil '\n' []) (by decide) hhead hbefore
    have hscans := Scans.markup (hmarkup _) (by simp) hbreak
    refine ⟨.passedOver :: .ofText ['\n'] :: before, ?_, ?_⟩
    · simpa only [List.cons_append, List.append_assoc, List.nil_append] using hscans
    · rw [foldlM_take_cons rfl, foldlM_take_cons (take_break none), htake]

/-- The tokens of an element make it the root. -/
theorem take_root (e : Element) : e.toNode.tokens.foldlM Open.take {} = .ok ⟨[], some e⟩ := by
  have hchildren := take_allTokens e.children ⟨e.name, e.attributes, []⟩ [] none
  rw [List.nil_append] at hchildren
  rw [Element.toNode, Node.tokens, foldlM_take_cons rfl, foldlM_take_append hchildren]
  exact (foldlM_take_cons (take_close e [] none)).trans rfl

/-- **A document is read as the element that stands in it**, with a break behind it. -/
theorem read_laidOut {before : List Char} {s : String} (hbefore : Preamble before)
    (h : Stands cs e) (hs : s.toList = before ++ (cs ++ ['\n'])) : read s = .ok e := by
  obtain ⟨more, hmore⟩ := h.exists_cons
  have hhead : ∀ x ∈ (cs ++ ['\n']).head?, x = '<' := by
    rw [hmore]
    exact Scans.head_markup _
  have hlast := Scans.text (List.cons_ne_nil '\n' []) (by decide) (fun x hx => by cases hx) Scans.nil
  obtain ⟨tokens, hscans, htake⟩ := hbefore.scans hhead (h.scans hlast)
  obtain ⟨rest, hrest⟩ : ∃ rest, s.toList = '<' :: rest := by
    rw [hs, hmore]
    cases hbefore with
    | nil => exact ⟨_, rfl⟩
    | cons _ _ => exact ⟨_, rfl⟩
  have hscan : Token.scan s = tokens ++ (e.toNode.tokens ++ [.ofText ['\n']]) := by
    rw [← hs, hrest] at hscans
    rw [Token.scan, hrest]
    exact hscans _ (Nat.lt_succ_self _)
  have hfold : (tokens ++ (e.toNode.tokens ++ [Token.ofText ['\n']])).foldlM Open.take {} =
      .ok ⟨[], some e⟩ := by
    rw [foldlM_take_append htake, foldlM_take_append (take_root e),
      foldlM_take_cons (take_break (some e))]
    rfl
  rw [read, hscan, hfold]
  rfl

end ResourceCompiler.Xml
