import Mathlib.Algebra.BigOperators.Group.List.Basic
import Mathlib.Algebra.Ring.Int.Defs
import ResourceCompiler.Proofs.Xml.Scanning
import ResourceCompiler.Xml.Reader

/-!
# Reading what was written

A tree is written as tags, texts and remarks: each element between its start tag and its end tag,
each text and value with references for what is markup. Such a document reads as the tree again, but
for the places where texts are divided; without one of its end tags it does not read.

## Main definitions

* `Xml.Piece`, `Xml.document`: a document in pieces, and its text.
* `Xml.Writes`: the pieces that trees can be written as.
* `Xml.Node.joined`: a tree with adjacent texts joined and empty ones dropped.

## Main statements

* `foldlM_take_written`: what the pieces of nodes add to the innermost open element.
* `Writes.sum_rise`: as many elements are closed as are opened.
* `read_written`: what is written is read, and no more once an end tag is missing.
-/

namespace ResourceCompiler.Xml

/-! ### Documents in pieces -/

/-- A tag or a remark. -/
inductive Markup where
  | start (name : String) (attributes : List (String × String))
  | close (name : String)
  | comment (content : String)
  | instruction (content : String)

/-- A part of a document. -/
inductive Piece where
  | text (text : String)
  | markup (markup : Markup)

/-- A tag or a remark as it stands in a document. -/
def Markup.written : Markup → List Char
  | .start name attributes => '<' :: (name.toList ++ (attributes.flatMap attributeText ++ ['>']))
  | .close name => '<' :: '/' :: (name.toList ++ ['>'])
  | .comment content => '<' :: '!' :: '-' :: '-' :: (content.toList ++ ['-', '-', '>'])
  | .instruction content => '<' :: '?' :: (content.toList ++ ['?', '>'])

def Piece.written : Piece → List Char
  | .text s => escape s.toList
  | .markup m => m.written

/-- The document that some pieces make up. -/
def document (pieces : List Piece) : String := String.ofList (pieces.flatMap Piece.written)

example : document [.markup (.comment " one "), .markup (.start "a" [("b", "1 < 2")]),
    .text "\"x\" & y", .markup (.close "a")] =
    "<!-- one --><a b=\"1 &lt; 2\">&quot;x&quot; &amp; y</a>" := by decide

/-- Whether markup is a comment or a processing instruction, which ends where it says so. -/
def Markup.IsRemark : Markup → Prop
  | .start _ _ => False
  | .close _ => False
  | .comment content => ¬ ['-', '-', '>'] <:+: content.toList
  | .instruction content => content.toList.head? ≠ some '>' ∧ ¬ ['?', '>'] <:+: content.toList

/-- What some nodes can be written as, one after the other, with remarks between them. -/
inductive Writes : List Node → List Piece → Prop
  | nil : Writes [] []
  | text {ns : List Node} {ps : List Piece} (s : String) :
      Writes ns ps → Writes (.text s :: ns) (.text s :: ps)
  | element {children ns : List Node} {qs ps : List Piece} (name : String)
      (attributes : List (String × String)) : Writes children qs → Writes ns ps →
      Writes (.element name attributes children :: ns)
        (.markup (.start name attributes) :: (qs ++ .markup (.close name) :: ps))
  | remark {ns : List Node} {ps : List Piece} {m : Markup} :
      m.IsRemark → Writes ns ps → Writes ns (.markup m :: ps)

mutual

/-- A node written without remarks. -/
def Node.pieces : Node → List Piece
  | .text s => [.text s]
  | .element name attributes children =>
    .markup (.start name attributes) :: (Node.allPieces children ++ [.markup (.close name)])

/-- Nodes written without remarks, one after the other. -/
def Node.allPieces : List Node → List Piece
  | [] => []
  | n :: rest => n.pieces ++ Node.allPieces rest

end

mutual

/-- Whether the elements and attributes of a tree have identifiers as names, and no element has two
attributes of one name. -/
def Node.isNamed : Node → Bool
  | .text _ => true
  | .element name attributes children =>
    isIdentifier name.toList && attributes.all (fun a => isIdentifier a.1.toList) &&
      decide (attributes.map Prod.fst).Nodup && Node.areNamed children

def Node.areNamed : List Node → Bool
  | [] => true
  | n :: rest => n.isNamed && Node.areNamed rest

end

variable {n : Node} {ns ms : List Node} {ps qs : List Piece} {m : Markup} {name : String}
  {attributes : List (String × String)} {children : List Node}

theorem Writes.append (h : Writes ns ps) (h' : Writes ms qs) : Writes (ns ++ ms) (ps ++ qs) := by
  induction h with
  | nil => exact h'
  | text s _ ih => exact .text s ih
  | element name attributes hchildren _ _ ih =>
    rw [List.cons_append, List.cons_append, List.append_assoc]
    exact .element name attributes hchildren ih
  | remark hm _ ih => exact .remark hm ih

mutual

/-- Every tree can be written. -/
theorem writes_pieces : (n : Node) → Writes [n] n.pieces
  | .text s => .text s .nil
  | .element name attributes children =>
    .element name attributes (writes_allPieces children) .nil

theorem writes_allPieces : (ns : List Node) → Writes ns (Node.allPieces ns)
  | [] => .nil
  | n :: rest => (writes_pieces n).append (writes_allPieces rest)

end

/-- Whether markup is read as what it stands for. -/
def Markup.WellFormed : Markup → Prop
  | .start name attributes => IsTagName name.toList ∧ WellNamed attributes
  | .close name => IsTagName name.toList
  | .comment content => (Markup.comment content).IsRemark
  | .instruction content => (Markup.instruction content).IsRemark

theorem Markup.IsRemark.wellFormed (h : m.IsRemark) : m.WellFormed := by
  cases m with
  | start name attributes => exact h.elim
  | close name => exact h.elim
  | comment content => exact h
  | instruction content => exact h

theorem Node.isNamed_element (h : (Node.element name attributes children).isNamed = true) :
    IsTagName name.toList ∧ WellNamed attributes ∧ Node.areNamed children = true := by
  simp only [Node.isNamed, Bool.and_eq_true, List.all_eq_true, decide_eq_true_eq] at h
  exact ⟨isTagName_of_isIdentifier h.1.1.1,
    ⟨fun a ha => isTagName_of_isIdentifier (h.1.1.2 a ha), h.1.2⟩, h.2⟩

theorem Node.areNamed_cons (h : Node.areNamed (n :: ns) = true) :
    n.isNamed = true ∧ Node.areNamed ns = true := by
  rwa [Node.areNamed, Bool.and_eq_true] at h

theorem Writes.wellFormed (h : Writes ns ps) (hnamed : Node.areNamed ns = true) :
    ∀ m, .markup m ∈ ps → m.WellFormed := by
  induction h with
  | nil => exact fun _ hm => absurd hm List.not_mem_nil
  | text s _ ih =>
    intro m hm
    refine ih (Node.areNamed_cons hnamed).2 m ?_
    exact (List.mem_cons.1 hm).resolve_left fun heq => by cases heq
  | element name attributes _ _ ihchildren ih =>
    obtain ⟨hnode, hrest⟩ := Node.areNamed_cons hnamed
    obtain ⟨hname, hattributes, hchildren⟩ := Node.isNamed_element hnode
    intro m hm
    rw [List.mem_cons, List.mem_append, List.mem_cons] at hm
    rcases hm with heq | hm | heq | hm
    · rw [Piece.markup.inj heq]
      exact ⟨hname, hattributes⟩
    · exact ihchildren hchildren m hm
    · rw [Piece.markup.inj heq]
      exact hname
    · exact ih hrest m hm
  | remark hm _ ih =>
    intro m hmem
    rcases List.mem_cons.1 hmem with heq | hmem
    · rw [Piece.markup.inj heq]
      exact hm.wellFormed
    · exact ih hnamed m hmem

/-! ### Trees with their texts joined -/

/-- A node in front of others: an empty text is dropped, and a text joins one behind it. -/
def Node.prepend : Node → List Node → List Node
  | .text s, .text t :: rest => .text (s ++ t) :: rest
  | .text s, rest => if s = "" then rest else .text s :: rest
  | .element name attributes children, rest => .element name attributes children :: rest

mutual

/-- The node with adjacent texts below it joined and empty ones dropped. -/
def Node.joined : Node → Node
  | .text s => .text s
  | .element name attributes children => .element name attributes (Node.joinedAll children)

def Node.joinedAll : List Node → List Node
  | [] => []
  | n :: rest => n.joined.prepend (Node.joinedAll rest)

end

theorem Node.prepend_empty (ns : List Node) : (Node.text "").prepend ns = ns := by
  cases ns with
  | nil => rfl
  | cons n ns =>
    cases n with
    | text t => rw [prepend, String.empty_append]
    | element name attributes children => rfl

theorem Node.prepend_append (s t : String) (ns : List Node) :
    (Node.text (s ++ t)).prepend ns = (Node.text s).prepend ((Node.text t).prepend ns) := by
  by_cases ht : t = ""
  · rw [ht, prepend_empty, String.append_empty]
  · have hst : s ++ t ≠ "" := fun h => ht (String.append_eq_empty_iff.1 h).2
    cases ns with
    | nil => simp only [prepend, if_neg ht, if_neg hst]
    | cons n ns =>
      cases n with
      | text u => simp only [prepend, String.append_assoc]
      | element name attributes children => simp only [prepend, if_neg ht, if_neg hst]

theorem Node.joinedAll_append (ns ms : List Node) :
    Node.joinedAll (ns ++ ms) =
      ns.foldr (fun n rest => n.joined.prepend rest) (Node.joinedAll ms) := by
  induction ns with
  | nil => rfl
  | cons n ns ih => rw [List.cons_append, joinedAll, ih, List.foldr_cons]

theorem Node.joinedAll_congr (ns : List Node) {ms ms' : List Node}
    (h : Node.joinedAll ms = Node.joinedAll ms') :
    Node.joinedAll (ns ++ ms) = Node.joinedAll (ns ++ ms') := by
  rw [joinedAll_append, joinedAll_append, h]

theorem Node.joinedAll_empty (ns : List Node) :
    Node.joinedAll (.text "" :: ns) = Node.joinedAll ns := by
  rw [joinedAll, joined, prepend_empty]

theorem Node.joinedAll_texts (s t : String) (ns : List Node) :
    Node.joinedAll (.text s :: .text t :: ns) = Node.joinedAll (.text (s ++ t) :: ns) := by
  simp only [joinedAll, joined, prepend_append]

/-! ### Tokens -/

/-- The token of a text that has been read, which is none if the text is empty. -/
def textTokens (pending : List Char) : List Token :=
  if pending = [] then [] else [.text (String.ofList pending)]

def Markup.token : Markup → Token
  | .start name attributes => .start name attributes
  | .close name => .close name
  | .comment _ => .passedOver
  | .instruction _ => .passedOver

theorem Markup.IsRemark.token (h : m.IsRemark) : m.token = .passedOver := by
  cases m with
  | start name attributes => exact h.elim
  | close name => exact h.elim
  | comment content => rfl
  | instruction content => rfl

/-- The tokens of a document. Texts without markup between them are one token: `pending` is what the
pieces in front hold of it. -/
def tokensFrom (pending : List Char) : List Piece → List Token
  | [] => textTokens pending
  | .text s :: rest => tokensFrom (pending ++ s.toList) rest
  | .markup m :: rest => textTokens pending ++ m.token :: tokensFrom [] rest

theorem Markup.WellFormed.scans (h : m.WellFormed) {rest : List Char} {tokens : List Token}
    (hrest : Scans rest tokens) : Scans (m.written ++ rest) (m.token :: tokens) := by
  cases m with
  | start name attributes =>
    have htag := Scans.startTag h.1 h.2 hrest
    rw [String.ofList_toList] at htag
    simpa only [written, token, List.cons_append, List.append_assoc, List.nil_append] using htag
  | close name =>
    have htag := Scans.endTag name.toList h.2 hrest
    rw [String.ofList_toList] at htag
    simpa only [written, token, List.cons_append, List.append_assoc, List.nil_append] using htag
  | comment content =>
    simpa only [written, token, List.cons_append, List.append_assoc, List.nil_append] using
      Scans.comment h hrest
  | instruction content =>
    simpa only [written, token, List.cons_append, List.append_assoc, List.nil_append] using
      Scans.instruction h.1 h.2 hrest

theorem Markup.written_eq_cons (m : Markup) : ∃ cs, m.written = '<' :: cs := by
  cases m with
  | start name attributes => exact ⟨_, rfl⟩
  | close name => exact ⟨_, rfl⟩
  | comment content => exact ⟨_, rfl⟩
  | instruction content => exact ⟨_, rfl⟩

theorem ofText_escape (cs : List Char) : Token.ofText (escape cs) = .text (String.ofList cs) := by
  rw [Token.ofText, unescape_escape]

theorem escape_eq_nil_iff {cs : List Char} : escape cs = [] ↔ cs = [] := by
  constructor
  · intro h
    have hread := unescape_escape cs
    rw [h] at hread
    exact (Option.some.inj hread).symm
  · rintro rfl
    rfl

theorem scans_escape (pending : List Char) {rest : List Char} {tokens : List Token}
    (hrest : ∀ x ∈ rest.head?, x = '<') (h : Scans rest tokens) :
    Scans (escape pending ++ rest) (textTokens pending ++ tokens) := by
  have htext := Scans.optionalText (not_mem_escape pending).1 hrest h
  rw [ofText_escape] at htext
  simpa only [textTokens, escape_eq_nil_iff] using htext

theorem scans_pieces (pending : List Char) (h : ∀ m, .markup m ∈ ps → m.WellFormed) :
    Scans (escape pending ++ ps.flatMap Piece.written) (tokensFrom pending ps) := by
  induction ps generalizing pending with
  | nil =>
    have htext := scans_escape pending (fun x hx => by cases hx) Scans.nil
    rw [List.append_nil (textTokens pending)] at htext
    exact htext
  | cons p ps ih =>
    have hps : ∀ m, .markup m ∈ ps → m.WellFormed := fun m hm => h m (List.mem_cons_of_mem p hm)
    cases p with
    | text s =>
      have htext := ih (pending ++ s.toList) hps
      rw [escape, List.flatMap_append, List.append_assoc] at htext
      exact htext
    | markup m =>
      have hmarkup := (h m List.mem_cons_self).scans (ih [] hps)
      obtain ⟨cs, hcs⟩ := m.written_eq_cons
      have hhead : ∀ x ∈ (m.written ++ ps.flatMap Piece.written).head?, x = '<' := by
        rw [hcs]
        exact Scans.head_markup _
      exact scans_escape pending hhead hmarkup

/-- The tokens of a document that begins with markup, so that no mark for the order of bytes stands
in front. -/
theorem scan_document (h : ∀ m', .markup m' ∈ Piece.markup m :: ps → m'.WellFormed) :
    Token.scan (document (.markup m :: ps)) = tokensFrom [] (.markup m :: ps) := by
  have hscans : Scans (m.written ++ ps.flatMap Piece.written) (tokensFrom [] (.markup m :: ps)) :=
    scans_pieces [] h
  obtain ⟨cs, hcs⟩ := m.written_eq_cons
  have hstart : (document (.markup m :: ps)).toList = '<' :: (cs ++ ps.flatMap Piece.written) := by
    rw [document, String.toList_ofList, List.flatMap_cons, Piece.written, hcs, List.cons_append]
  rw [hcs, List.cons_append] at hscans
  rw [Token.scan, hstart]
  exact hscans _ (Nat.lt_succ_self _)

/-! ### Reading -/

theorem foldlM_take_cons {o q : Open} {token : Token} {rest : List Token}
    (h : o.take token = .ok q) :
    (token :: rest).foldlM Open.take o = rest.foldlM Open.take q := by
  rw [List.foldlM_cons, h]
  rfl

/-- The node of a text that has been read, which is none if the text is empty. -/
def textNodes (pending : List Char) : List Node :=
  if pending = [] then [] else [.text (String.ofList pending)]

theorem joinedAll_textNodes (pending : List Char) (ns : List Node) :
    Node.joinedAll (textNodes pending ++ ns) =
      Node.joinedAll (.text (String.ofList pending) :: ns) := by
  unfold textNodes
  split
  · rename_i hnil
    rw [hnil]
    exact (Node.joinedAll_empty ns).symm
  · rfl

theorem joinedAll_pending (pending : List Char) (h : Node.joinedAll ns = Node.joinedAll ms) :
    Node.joinedAll (children ++ textNodes pending ++ ns) =
      Node.joinedAll (children ++ .text (String.ofList pending) :: ms) := by
  rw [List.append_assoc]
  refine Node.joinedAll_congr children ((joinedAll_textNodes pending ns).trans ?_)
  exact Node.joinedAll_congr [.text (String.ofList pending)] h

/-- The children of an element whose last text ends with it. -/
theorem joinedAll_ended {pending : List Char}
    (h : Node.joinedAll (children ++ [.text (String.ofList pending)]) =
      Node.joinedAll (.text "" :: ns)) :
    Node.joinedAll (children ++ textNodes pending) = Node.joinedAll ns := by
  have hended : Node.joinedAll (children ++ textNodes pending ++ []) =
      Node.joinedAll (children ++ [.text (String.ofList pending)]) := joinedAll_pending pending rfl
  rw [List.append_nil] at hended
  exact hended.trans (h.trans (Node.joinedAll_empty ns))

theorem take_close (e : Element) (below : List Element) (root : Option Element) :
    Open.take ⟨e :: below, root⟩ (.close e.name) = Open.attach ⟨below, root⟩ e := by
  rw [Open.take]
  exact if_pos rfl

theorem foldlM_take_textTokens (name : String) (attributes : List (String × String))
    (children : List Node) (below : List Element) (root : Option Element) (pending : List Char)
    (rest : List Token) :
    (textTokens pending ++ rest).foldlM Open.take ⟨⟨name, attributes, children⟩ :: below, root⟩ =
      rest.foldlM Open.take ⟨⟨name, attributes, children ++ textNodes pending⟩ :: below, root⟩ := by
  unfold textTokens textNodes
  split
  · rw [List.append_nil, List.nil_append]
  · exact foldlM_take_cons rfl

/-- **What is written of nodes adds them to the innermost open element**, but for a text that has
not ended. -/
theorem foldlM_take_written (h : Writes ns ps) (name : String)
    (attributes : List (String × String)) (children : List Node) (below : List Element)
    (root : Option Element) (pending : List Char) (after : List Piece) :
    ∃ (children' : List Node) (pending' : List Char),
      (tokensFrom pending (ps ++ after)).foldlM Open.take
          ⟨⟨name, attributes, children⟩ :: below, root⟩ =
        (tokensFrom pending' after).foldlM Open.take
          ⟨⟨name, attributes, children'⟩ :: below, root⟩ ∧
      Node.joinedAll (children' ++ [.text (String.ofList pending')]) =
        Node.joinedAll (children ++ .text (String.ofList pending) :: ns) := by
  induction h generalizing name attributes children below pending after with
  | nil => exact ⟨children, pending, rfl, rfl⟩
  | text s _ ih =>
    obtain ⟨children', pending', hfold, hjoined⟩ :=
      ih name attributes children below (pending ++ s.toList) after
    refine ⟨children', pending', hfold, hjoined.trans (Node.joinedAll_congr children ?_)⟩
    rw [Node.joinedAll_texts, String.ofList_append, String.ofList_toList]
  | @element inner ns qs ps elementName elementAttributes _ _ ihinner ih =>
    obtain ⟨inner', pendingInner, hinner, hinnerJoined⟩ := ihinner elementName elementAttributes []
      (⟨name, attributes, children ++ textNodes pending⟩ :: below) []
      (.markup (.close elementName) :: (ps ++ after))
    obtain ⟨children', pending', hfold, hjoined⟩ := ih name attributes
      (children ++ textNodes pending ++ [.element elementName elementAttributes
        (inner' ++ textNodes pendingInner)]) below [] after
    have hchildren : Node.joinedAll (inner' ++ textNodes pendingInner) = Node.joinedAll inner :=
      joinedAll_ended hinnerJoined
    refine ⟨children', pending', ?_, hjoined.trans ?_⟩
    · rw [List.cons_append, List.append_assoc, List.cons_append, tokensFrom,
        foldlM_take_textTokens, foldlM_take_cons rfl, hinner, tokensFrom, foldlM_take_textTokens]
      exact (foldlM_take_cons (take_close ⟨elementName, _, _⟩ _ _)).trans hfold
    · rw [List.append_assoc (children ++ _)]
      refine joinedAll_pending pending ?_
      show Node.prepend _ (Node.joinedAll (.text "" :: ns)) = Node.prepend _ (Node.joinedAll ns)
      rw [Node.joinedAll_empty, Node.joined, Node.joined, hchildren]
  | @remark ns ps m hm _ ih =>
    obtain ⟨children', pending', hfold, hjoined⟩ :=
      ih name attributes (children ++ textNodes pending) below [] after
    refine ⟨children', pending', ?_, hjoined.trans ?_⟩
    · rw [List.cons_append, tokensFrom, foldlM_take_textTokens, hm.token,
        foldlM_take_cons rfl]
      exact hfold
    · exact joinedAll_pending pending (Node.joinedAll_empty ns)

theorem foldlM_take_remarks (h : Writes [] ps) (o : Open) :
    (tokensFrom [] ps).foldlM Open.take o = .ok o := by
  generalize hns : [] = ns at h
  induction h with
  | nil => rfl
  | text s _ _ => cases hns
  | element name attributes _ _ _ _ => cases hns
  | @remark ns ps m hm _ ih =>
    show (m.token :: tokensFrom [] ps).foldlM Open.take o = .ok o
    rw [hm.token, foldlM_take_cons rfl]
    exact ih hns

/-- What is written of an element makes it the root. -/
theorem foldlM_take_root (h : Writes [.element name attributes children] ps) :
    ∃ children', (tokensFrom [] ps).foldlM Open.take {} =
        .ok ⟨[], some ⟨name, attributes, children'⟩⟩ ∧
      Node.joinedAll children' = Node.joinedAll children := by
  generalize hns : [Node.element name attributes children] = ns at h
  induction h with
  | nil => cases hns
  | text s _ _ => cases hns
  | @element inner ns qs ps name attributes hinner hrest _ _ =>
    cases hns
    obtain ⟨inner', pending, hfold, hjoined⟩ := foldlM_take_written hinner name attributes [] []
      none [] (.markup (.close name) :: ps)
    refine ⟨inner' ++ textNodes pending, ?_, joinedAll_ended hjoined⟩
    show (Token.start name attributes :: tokensFrom [] (qs ++ .markup (.close name) :: ps)).foldlM
      Open.take {} = _
    rw [foldlM_take_cons rfl, hfold, tokensFrom, foldlM_take_textTokens]
    exact (foldlM_take_cons (take_close ⟨name, _, _⟩ _ _)).trans (foldlM_take_remarks hrest _)
  | @remark ns ps m hm _ ih =>
    obtain ⟨children', hfold, hjoined⟩ := ih hns
    refine ⟨children', ?_, hjoined⟩
    show (m.token :: tokensFrom [] ps).foldlM Open.take {} = _
    rw [hm.token, foldlM_take_cons rfl]
    exact hfold

/-! ### End tags -/

/-- By how much markup changes the number of open elements. -/
def Markup.rise : Markup → Int
  | .start _ _ => 1
  | .close _ => -1
  | .comment _ => 0
  | .instruction _ => 0

def Piece.rise : Piece → Int
  | .text _ => 0
  | .markup m => m.rise

def Token.rise : Token → Int
  | .start _ _ => 1
  | .close _ => -1
  | .empty _ _ | .text _ | .verbatim _ | .passedOver | .fault => 0

theorem length_stack_of_attach {o q : Open} {e : Element} (h : o.attach e = .ok q) :
    q.stack.length = o.stack.length := by
  obtain ⟨stack, root⟩ := o
  cases stack with
  | cons top below =>
    cases h
    rfl
  | nil =>
    cases root with
    | none =>
      cases h
      rfl
    | some root => cases h

theorem length_stack_of_take {o q : Open} {token : Token} (h : o.take token = .ok q) :
    (q.stack.length : Int) = o.stack.length + token.rise := by
  obtain ⟨stack, root⟩ := o
  cases token with
  | start name attributes =>
    cases h
    rfl
  | empty name attributes =>
    have hlength := length_stack_of_attach h
    simp only [Token.rise] at hlength ⊢
    omega
  | close name =>
    cases stack with
    | nil => cases h
    | cons top below =>
      simp only [Open.take] at h
      split at h
      · have hlength := length_stack_of_attach h
        simp only [Token.rise, List.length_cons] at hlength ⊢
        omega
      · cases h
  | text text =>
    cases stack with
    | nil =>
      simp only [Open.take] at h
      split at h
      · cases h
        rfl
      · cases h
    | cons top below =>
      cases h
      rfl
  | verbatim text =>
    cases stack with
    | nil =>
      cases h
      rfl
    | cons top below =>
      cases h
      rfl
  | passedOver =>
    cases h
    exact (Int.add_zero _).symm
  | fault => cases h

theorem length_stack_of_foldlM {o q : Open} {tokens : List Token}
    (h : tokens.foldlM Open.take o = .ok q) :
    (q.stack.length : Int) = o.stack.length + (tokens.map Token.rise).sum := by
  induction tokens generalizing o with
  | nil =>
    cases h
    exact (Int.add_zero _).symm
  | cons token tokens ih =>
    rw [List.foldlM_cons] at h
    cases htake : o.take token with
    | error fault =>
      rw [htake] at h
      cases h
    | ok p =>
      rw [htake] at h
      have hstep := length_stack_of_take htake
      have hrest := ih h
      rw [List.map_cons, List.sum_cons]
      omega

theorem Markup.rise_token (m : Markup) : m.token.rise = m.rise := by cases m <;> rfl

theorem sum_rise_tokensFrom (pending : List Char) (ps : List Piece) :
    ((tokensFrom pending ps).map Token.rise).sum = (ps.map Piece.rise).sum := by
  have htexts (pending : List Char) : ((textTokens pending).map Token.rise).sum = 0 := by
    unfold textTokens
    split
    · rfl
    · rfl
  induction ps generalizing pending with
  | nil => exact htexts pending
  | cons p ps ih =>
    cases p with
    | text s =>
      rw [tokensFrom, ih, List.map_cons, List.sum_cons]
      exact (Int.zero_add _).symm
    | markup m =>
      rw [tokensFrom, List.map_append, List.sum_append, htexts, List.map_cons, List.sum_cons, ih,
        m.rise_token, zero_add]
      rfl

theorem Markup.IsRemark.rise (h : m.IsRemark) : m.rise = 0 := by
  rw [← m.rise_token, h.token, Token.rise]

/-- What is written of nodes closes as many elements as it opens. -/
theorem Writes.sum_rise (h : Writes ns ps) : (ps.map Piece.rise).sum = 0 := by
  induction h with
  | nil => rfl
  | text s _ ih => rw [List.map_cons, List.sum_cons, ih, Piece.rise, add_zero]
  | element name attributes _ _ ihchildren ih =>
    rw [List.map_cons, List.sum_cons, List.map_append, List.sum_append, List.map_cons,
      List.sum_cons, ihchildren, ih]
    rfl
  | remark hm _ ih => rw [List.map_cons, List.sum_cons, ih, Piece.rise, hm.rise, add_zero]

/-- What is written of an element begins with markup that closes none. -/
theorem Writes.exists_cons (h : Writes [.element name attributes children] ps) :
    ∃ m rest, ps = .markup m :: rest ∧ ∀ name, m ≠ .close name := by
  cases h with
  | element _ _ _ _ => exact ⟨_, _, rfl, fun _ heq => by cases heq⟩
  | remark hm _ => exact ⟨_, _, rfl, fun _ heq => by rw [heq] at hm; exact hm⟩

/-- A document that opens more elements than it closes does not read. -/
theorem read_document_of_rise (h : ∀ m', .markup m' ∈ Piece.markup m :: ps → m'.WellFormed)
    (hrise : 0 < ((Piece.markup m :: ps).map Piece.rise).sum) :
    ∃ fault, read (document (.markup m :: ps)) = .error fault := by
  rw [read, scan_document h]
  cases hfold : (tokensFrom [] (.markup m :: ps)).foldlM Open.take {} with
  | error fault => exact ⟨fault, rfl⟩
  | ok q =>
    have hlength := length_stack_of_foldlM hfold
    rw [sum_rise_tokensFrom] at hlength
    obtain ⟨stack, root⟩ := q
    cases stack with
    | nil =>
      rw [List.length_nil] at hlength
      omega
    | cons top below => exact ⟨.neverClosed top.name, rfl⟩

/-! ### Documents -/

/-- **What is written of a tree is read as the tree**, but for the places where texts are divided,
and is read no more once an end tag is missing. -/
theorem read_written {e : Element} (h : e.toNode.isNamed = true) :
    Writes [e.toNode] e.toNode.pieces ∧ ∀ pieces, Writes [e.toNode] pieces →
      (∃ root, read (document pieces) = .ok root ∧ root.toNode.joined = e.toNode.joined) ∧
      ∀ before name after, pieces = before ++ .markup (.close name) :: after →
        ∃ fault, read (document (before ++ after)) = .error fault := by
  have hnamed : Node.areNamed [e.toNode] = true := by
    rw [Node.areNamed, h]
    rfl
  refine ⟨writes_pieces e.toNode, fun pieces hwrites => ?_⟩
  have hformed := hwrites.wellFormed hnamed
  obtain ⟨m, rest, rfl, hm⟩ := hwrites.exists_cons
  constructor
  · obtain ⟨children, hfold, hjoined⟩ := foldlM_take_root hwrites
    refine ⟨⟨e.name, e.attributes, children⟩, ?_, ?_⟩
    · rw [read, scan_document hformed, hfold]
      rfl
    · show Node.element _ _ (Node.joinedAll children) = _
      rw [hjoined]
      rfl
  · intro before name after heq
    cases before with
    | nil => exact absurd (Piece.markup.inj (List.cons.inj heq).1) (hm name)
    | cons p before =>
      rw [List.cons_append] at heq
      obtain ⟨rfl, rfl⟩ := List.cons.inj heq
      show ∃ fault, read (document (.markup m :: (before ++ after))) = .error fault
      refine read_document_of_rise (fun m' hm' => hformed m' ?_) ?_
      · rw [← List.cons_append, List.mem_append] at hm' ⊢
        exact hm'.imp id (List.mem_cons_of_mem _)
      · have hsum := hwrites.sum_rise
        simp only [List.map_cons, List.map_append, List.sum_cons, List.sum_append, Piece.rise,
          Markup.rise] at hsum ⊢
        omega

theorem read_written_remark :
    (Element.mk "a" [("b", "1 < 2")]
        [.text "x & y", .element "c" [] [.text "\"z\""]]).toNode.isNamed = true ∧
      (∃ root, read (document [.markup (.start "a" [("b", "1 < 2")]), .text "x & y",
          .markup (.comment " - "), .markup (.start "c" []), .text "\"z\"", .markup (.close "c"),
          .markup (.close "a")]) = .ok root ∧
        root.toNode.joined =
          .element "a" [("b", "1 < 2")] [.text "x & y", .element "c" [] [.text "\"z\""]]) ∧
      ∃ fault, read (document [.markup (.start "a" [("b", "1 < 2")]), .text "x & y",
        .markup (.comment " - "), .markup (.start "c" []), .text "\"z\"", .markup (.close "a")]) =
          .error fault := by
  have hnamed : (Element.mk "a" [("b", "1 < 2")]
      [.text "x & y", .element "c" [] [.text "\"z\""]]).toNode.isNamed = true := by decide
  have hremark : (Markup.comment " - ").IsRemark := by
    show ¬ ['-', '-', '>'] <:+: " - ".toList
    decide
  have hwrites : Writes [.element "a" [("b", "1 < 2")]
      [.text "x & y", .element "c" [] [.text "\"z\""]]]
      [.markup (.start "a" [("b", "1 < 2")]), .text "x & y", .markup (.comment " - "),
        .markup (.start "c" []), .text "\"z\"", .markup (.close "c"), .markup (.close "a")] :=
    .element "a" _ (.text _ (.remark hremark (.element "c" [] (.text _ .nil) .nil))) .nil
  obtain ⟨⟨root, hread, hjoined⟩, hdropped⟩ := (read_written hnamed).2 _ hwrites
  refine ⟨hnamed, ⟨root, hread, hjoined.trans ?_⟩, ?_⟩
  · simp [Element.toNode, Node.joined, Node.joinedAll, Node.prepend]
  · exact hdropped [_, _, _, _, _] "c" [_] rfl

end ResourceCompiler.Xml
