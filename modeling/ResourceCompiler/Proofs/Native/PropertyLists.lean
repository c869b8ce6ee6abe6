import ResourceCompiler.Native.PropertyList
import ResourceCompiler.Proofs.Xml.Spelling

/-!
# Property lists read back

A property list is read as a value: a text, or a dictionary of keys in order, each with its value.
What is written for keys with texts, and for keys with dictionaries, is read as these pairs.

* `Value`, `valueOf?`, `read?`: the value of a property list.
* `PairLines`: lines that hold pairs of keys and values.
* `pairLines_entry`, `pairLines_dictLines`: a key with a text, and a key with a dictionary.
* `read_document`: what a property list with lines of pairs is read as.
-/

namespace ResourceCompiler.Native.PropertyList

open Xml

/-! ### Values -/

/-- A value of a property list. -/
inductive Value where
  | text (text : String)
  | dictionary (pairs : List (String × Value))

/-- The text of an element that holds nothing else. -/
def textOf? (children : List Xml.Node) : Option String :=
  if (children.filterMap Xml.Node.element?).isEmpty then
    some (String.ofList (Xml.Node.allTexts children))
  else none

mutual

/-- The value that an element describes. -/
def valueOf? : Xml.Node → Option Value
  | .text _ => none
  | .element name _ children =>
    if name = "string" then (textOf? children).map .text
    else if name = "dict" then (pairsOf? none children).map .dictionary
    else none

/-- The keys with their values that the children of a dictionary describe, where the value of a key
that has been read is still to come. Only blanks may stand between them. -/
def pairsOf? : Option String → List Xml.Node → Option (List (String × Value))
  | none, [] => some []
  | some _, [] => none
  | key, .text s :: rest => if s.toList.all Text.isBlank then pairsOf? key rest else none
  | none, .element name _ children :: rest =>
    if name = "key" then do pairsOf? (some (← textOf? children)) rest else none
  | some key, .element name attributes children :: rest => do
    let value ← valueOf? (.element name attributes children)
    let more ← pairsOf? none rest
    return (key, value) :: more

end

/-- The value of a property list. -/
def read? (root : Element) : Option Value :=
  if root.name = "plist" then
    match root.elements with
    | [e] => valueOf? e.toNode
    | _ => none
  else none

/-! ### Pairs -/

variable {key : Option String} {pairs more : List (String × Value)} {ns ms : List Xml.Node}
  {cs rest : List Char}

theorem pairsOf?_text (key : Option String) (s : String) (ns : List Xml.Node) :
    pairsOf? key (.text s :: ns) =
      if s.toList.all Text.isBlank then pairsOf? key ns else none := by
  cases key with
  | none => rfl
  | some key => rfl

/-- Blanks between elements do not count. -/
theorem pairsOf?_eq_of_blank (h : Blank ns) (key : Option String) :
    pairsOf? key ns = pairsOf? key ((ns.filterMap Xml.Node.element?).map Element.toNode) := by
  induction ns generalizing key with
  | nil => rfl
  | cons n ns ih =>
    have hns : Blank ns := fun s hs => h s (List.mem_cons_of_mem n hs)
    cases n with
    | text s =>
      rw [pairsOf?_text, if_pos (h s List.mem_cons_self)]
      exact ih hns key
    | element name attributes children =>
      show _ = pairsOf? key (.element name attributes children ::
        (ns.filterMap Xml.Node.element?).map Element.toNode)
      cases key with
      | none => simp only [pairsOf?, ih hns]
      | some key => simp only [pairsOf?, ih hns]

/-- Pairs are read one after the other. -/
theorem pairsOf?_append (h : pairsOf? key ns = some pairs) (ms : List Xml.Node) :
    pairsOf? key (ns ++ ms) = (pairsOf? none ms).map (pairs ++ ·) := by
  induction ns generalizing key pairs with
  | nil =>
    cases key with
    | some key => cases h
    | none =>
      rw [← Option.some.inj h]
      exact (Option.map_id' (x := pairsOf? none ms)).symm
  | cons n ns ih =>
    rw [List.cons_append]
    cases n with
    | text s =>
      rw [pairsOf?_text] at h ⊢
      split at h
      · rename_i hblank
        rw [if_pos hblank]
        exact ih h
      · cases h
    | element name attributes children =>
      cases key with
      | none =>
        rw [pairsOf?] at h ⊢
        split at h
        · rename_i hname
          obtain ⟨text, htext, h⟩ := Option.bind_eq_some_iff.1 h
          rw [if_pos hname, htext]
          exact ih h
        · cases h
      | some key =>
        rw [pairsOf?] at h ⊢
        obtain ⟨value, hvalue, h⟩ := Option.bind_eq_some_iff.1 h
        obtain ⟨more, hmore, h⟩ := Option.bind_eq_some_iff.1 h
        rw [hvalue, ih hmore, ← Option.some.inj h]
        cases pairsOf? none ms with
        | none => rfl
        | some rest => rfl

/-- A key with its value. -/
theorem pairsOf?_pair {k v : Element} {key : String} {value : Value} (hname : k.name = "key")
    (hkey : textOf? k.children = some key) (hvalue : valueOf? v.toNode = some value) :
    pairsOf? none [k.toNode, v.toNode] = some [(key, value)] := by
  obtain ⟨name, attributes, children⟩ := k
  obtain rfl : name = "key" := hname
  have hpair : pairsOf? (some key) [v.toNode] = some [(key, value)] := by
    rw [Element.toNode] at hvalue ⊢
    rw [pairsOf?, hvalue]
    rfl
  rw [Element.toNode, pairsOf?, if_pos rfl, hkey]
  exact hpair

/-! ### Lines of pairs -/

/-- Whether lines hold pairs of keys and values. -/
def PairLines (cs : List Char) (pairs : List (String × Value)) : Prop :=
  ∃ es, Lines cs es ∧ pairsOf? none (es.map Element.toNode) = some pairs

theorem PairLines.append (h : PairLines cs pairs) (h' : PairLines rest more) :
    PairLines (cs ++ rest) (pairs ++ more) := by
  obtain ⟨es, hes, hpairs⟩ := h
  obtain ⟨fs, hfs, hmore⟩ := h'
  refine ⟨es ++ fs, hes.append hfs, ?_⟩
  rw [List.map_append, pairsOf?_append hpairs, hmore]
  rfl

/-- Lines of several things, each of which gives the lines of a pair. -/
theorem pairLines_flatMap {α : Type} {line : α → List Char} {pair : α → String × Value}
    {as : List α} (h : ∀ a ∈ as, PairLines (line a) [pair a]) :
    PairLines (as.flatMap line) (as.map pair) := by
  induction as with
  | nil => exact ⟨[], .nil, rfl⟩
  | cons a as ih =>
    obtain ⟨ha, has⟩ := List.forall_mem_cons.1 h
    exact ha.append (ih has)

theorem textOf?_of_elements {e : Element} (h : e.elements = []) :
    textOf? e.children = some e.text := by
  rw [Element.elements] at h
  rw [textOf?, h]
  rfl

/-- An element with a written text holds that text and nothing else. -/
theorem textOf?_textElement (name : String) (attributes : List (String × String))
    {part s : List Char} (hread : unescape part = some s) :
    textOf? (textElement name attributes part s).children = some (String.ofList s) := by
  rw [textOf?_of_elements (elements_textElement name attributes part s),
    text_textElement name attributes hread]

/-- The lines of a key and of an element that has its value. -/
theorem pairLines_of_stands {key : String} (hkey : '<' ∉ key.toList ∧ '&' ∉ key.toList)
    {blanks : List Char} (hblanks : ∀ x ∈ blanks, x = ' ') {e : Element} (he : Stands cs e)
    {value : Value} (hvalue : valueOf? e.toNode = some value) :
    PairLines (blanks ++ (tagged "key" [] key.toList ++ '\n' :: (blanks ++ (cs ++ ['\n']))))
      [(key, value)] := by
  have hname : IsTagName "key".toList := isTagName_of_all (by decide +kernel)
  have hread := unescape_of_not_mem hkey.2
  have htext := textOf?_textElement "key" [] hread
  rw [String.ofList_toList] at htext
  exact ⟨[_, e], .cons hblanks (stands_textElement hname WellNamed.nil hkey.1 hread)
    (.singleton hblanks he), pairsOf?_pair rfl htext hvalue⟩

theorem toList_entry (blanks key value : String) : (entry blanks key value).toList =
    blanks.toList ++ (tagged "key" [] key.toList ++ '\n' :: (blanks.toList ++
      (tagged "string" [] (escape value.toList) ++ ['\n']))) := by
  simp [entry, tagged]

/-- A key with a text. -/
theorem pairLines_entry {blanks key : String} (hblanks : ∀ x ∈ blanks.toList, x = ' ')
    (hkey : '<' ∉ key.toList ∧ '&' ∉ key.toList) (value : String) :
    PairLines (entry blanks key value).toList [(key, .text value)] := by
  have hname : IsTagName "string".toList := isTagName_of_all (by decide +kernel)
  have hread := unescape_escape value.toList
  have hvalue : valueOf? (textElement "string" [] (escape value.toList) value.toList).toNode =
      some (.text value) := by
    rw [Element.toNode, valueOf?]
    refine (if_pos rfl).trans ?_
    rw [textOf?_textElement "string" [] hread, String.ofList_toList]
    rfl
  rw [toList_entry]
  exact pairLines_of_stands hkey hblanks
    (stands_textElement hname WellNamed.nil (not_mem_escape value.toList).1 hread) hvalue

/-- A dictionary with the pairs of its lines. -/
theorem exists_stands_dict (h : PairLines cs pairs) {blanks : List Char}
    (hblanks : ∀ x ∈ blanks, x = ' ') :
    ∃ e, Stands (tagged "dict" [] ('\n' :: (cs ++ blanks))) e ∧
      valueOf? e.toNode = some (.dictionary pairs) := by
  have hname : IsTagName "dict".toList := isTagName_of_all (by decide +kernel)
  obtain ⟨es, hes, hpairs⟩ := h
  obtain ⟨e, he, hdict, -, helements, hblank⟩ :=
    exists_stands_lines hname WellNamed.nil hes hblanks
  refine ⟨e, he, ?_⟩
  rw [Element.elements] at helements
  rw [Element.toNode, valueOf?, hdict, if_neg (by decide), if_pos rfl,
    pairsOf?_eq_of_blank hblank, helements, hpairs]
  rfl

/-- The lines of a key with a dictionary. -/
def dictLines (depth : Nat) (key : String) (content : List Char) : List Char :=
  indent depth ++ (tagged "key" [] key.toList ++ '\n' :: (indent depth ++
    (tagged "dict" [] ('\n' :: (content ++ indent depth)) ++ ['\n'])))

/-- A key with a dictionary. -/
theorem pairLines_dictLines {key : String} (hkey : '<' ∉ key.toList ∧ '&' ∉ key.toList)
    (h : PairLines cs pairs) (depth : Nat) :
    PairLines (dictLines depth key cs) [(key, .dictionary pairs)] := by
  obtain ⟨e, he, hvalue⟩ := exists_stands_dict h (eq_of_mem_indent depth)
  exact pairLines_of_stands hkey (eq_of_mem_indent depth) he hvalue

/-! ### Documents -/

/-- The declaration in front of a property list. -/
def declaration : String := "xml version=\"1.0\" encoding=\"UTF-8\""

/-- The name of the type of a property list, with what stands in front of it, and where the type is
described. -/
def typeName : String := " plist PUBLIC \"-//Apple//DTD PLIST 1.0//EN\" "

def typeAddress : String := "\"http://www.apple.com/DTDs/PropertyList-1.0.dtd\""

def documentType : List Char := typeName.toList ++ typeAddress.toList

/-- What stands in front of the root of a property list. -/
def preamble : List Char :=
  '<' :: ('?' :: (declaration.toList ++ ['?', '>']) ++ '\n' ::
    '<' :: ('!' :: ("DOCTYPE".toList ++ (documentType ++ ['>'])) ++ ['\n']))

theorem preamble_preamble : Preamble preamble := by
  have hdeclaration : '?' ∉ declaration.toList := by simp [declaration]
  have hopen : '<' ∉ documentType := by simp [documentType, typeName, typeAddress]
  have hclose : '>' ∉ documentType := by simp [documentType, typeName, typeAddress]
  have hname : documentType.all isSpace = false := by simp [documentType, typeName, isSpace]
  exact .instruction (by simp [declaration])
    (fun hin => hdeclaration (hin.subset List.mem_cons_self)) (.doctype hopen hclose hname .nil)

theorem toList_document (body : String) : (document body).toList =
    preamble ++ (tagged "plist" [("version", "1.0")] ('\n' ::
      (tagged "dict" [] ('\n' :: (body.toList ++ [])) ++ ['\n'])) ++ ['\n']) := by
  have hversion : ∀ x ∈ "1.0".toList, isNameChar x = true := by simp [isNameChar, isSpace]
  have hdeclaration : "<?xml version=\"1.0\" encoding=\"UTF-8\"?>\n".toList =
      '<' :: '?' :: (declaration.toList ++ ['?', '>', '\n']) := by simp [declaration]
  have hname : "<!DOCTYPE plist PUBLIC \"-//Apple//DTD PLIST 1.0//EN\" ".toList =
      '<' :: '!' :: ("DOCTYPE".toList ++ typeName.toList) := by simp [typeName]
  have haddress : "\"http://www.apple.com/DTDs/PropertyList-1.0.dtd\">\n".toList =
      typeAddress.toList ++ ['>', '\n'] := by simp [typeAddress]
  rw [tagged_singleton "plist" "version" hversion]
  have hopen : "<plist version=\"1.0\">\n<dict>\n".toList =
      '<' :: ("plist".toList ++ ' ' :: ("version".toList ++ '=' :: '"' :: ("1.0".toList ++ '"' ::
        '>' :: '\n' :: '<' :: ("dict".toList ++ ['>', '\n'])))) := by simp
  have hclose : "</dict>\n</plist>\n".toList = '<' :: '/' :: ("dict".toList ++ '>' :: '\n' ::
      '<' :: '/' :: ("plist".toList ++ ['>', '\n'])) := by simp
  delta document
  simp only [String.toList_append, hdeclaration, hname, haddress, hopen, hclose, preamble,
    documentType, tagged, List.flatMap_nil, List.append_assoc, List.cons_append, List.nil_append,
    List.append_nil]

/-- **A property list is read as the pairs of its lines.** -/
theorem read_document {body : String} (h : PairLines body.toList pairs) :
    ∃ root, Xml.read (document body) = .ok root ∧ read? root = some (.dictionary pairs) := by
  have hname : IsTagName "plist".toList := isTagName_of_all (by decide +kernel)
  have hversion : IsTagName "version".toList := isTagName_of_all (by decide +kernel)
  have hnone := List.forall_mem_nil (· = ' ')
  obtain ⟨e, he, hvalue⟩ := exists_stands_dict h hnone
  have hlines := Lines.singleton hnone he
  obtain ⟨root, hroot, hplist, -, helements, -⟩ :=
    exists_stands_lines hname (.singleton hversion "1.0") hlines hnone
  rw [List.append_nil, List.nil_append] at hroot
  refine ⟨root, read_laidOut preamble_preamble hroot (toList_document body), ?_⟩
  rw [read?, if_pos hplist, helements]
  exact hvalue

end ResourceCompiler.Native.PropertyList
