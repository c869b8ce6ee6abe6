import Mathlib.Algebra.Order.BigOperators.Group.List
import Mathlib.Data.List.Infix
import Mathlib.Data.List.TakeWhile
import ResourceCompiler.Resource.Name
import ResourceCompiler.Xml.Token

/-!
# Scanning markup

What a document starts with decides its first token: each kind of markup has a rule that takes the
markup off, whatever follows it.

* `Scans`: the tokens of a text.
* `Scans.markup`, `Scans.text`: the first token of a text.
* `markup_instruction`, `markup_comment`, `markup_doctype`, `markup_start`: kinds of markup.
* `attributeText`, `ofTag_written`: a tag with the attributes that it was written with.
-/

namespace ResourceCompiler.Xml

variable {c : Char} {part rest cs : List Char} {tokens : List Token} {token : Token}

/-! ### Characters of names -/

/-- Whether a character means nothing in markup. -/
def isNameChar (c : Char) : Bool :=
  !isSpace c && !(['<', '>', '"', '\'', '=', '/', '!', '?', '&'].contains c)

theorem ne_of_isNameChar {d : Char} (h : isNameChar c = true) (hd : isNameChar d = false) :
    c ≠ d := by
  rintro rfl
  rw [h] at hd
  cases hd

theorem isSpace_of_isNameChar (h : isNameChar c = true) : isSpace c = false := by
  rw [isNameChar, Bool.and_eq_true] at h
  simpa using h.1

theorem isNameChar_of_isIdentifierChar (h : isIdentifierChar c = true) : isNameChar c = true := by
  have hmarkup : [' ', '\r', '\n', '\t', '<', '>', '"', '\'', '=', '/', '!', '?', '&'].all
      (!isIdentifierChar ·) = true := by decide
  have hne : ∀ d ∈ [' ', '\r', '\n', '\t', '<', '>', '"', '\'', '=', '/', '!', '?', '&'],
      c ≠ d := by
    rintro d hd rfl
    have hc := List.all_eq_true.1 hmarkup c hd
    rw [h] at hc
    cases hc
  simp only [List.forall_mem_cons] at hne
  simp [isNameChar, isSpace, hne]

/-- Whether a text can be a name in a tag. -/
def IsTagName (cs : List Char) : Prop := cs ≠ [] ∧ ∀ x ∈ cs, isNameChar x = true

theorem isTagName_of_all (h : (!cs.isEmpty && cs.all isNameChar) = true) : IsTagName cs := by
  rw [Bool.and_eq_true, Bool.not_eq_true', List.isEmpty_eq_false_iff, List.all_eq_true] at h
  exact h

theorem isTagName_of_isIdentifier (h : isIdentifier cs = true) : IsTagName cs :=
  ⟨isIdentifier_ne_nil h, fun _ hx =>
    isNameChar_of_isIdentifierChar (List.all_eq_true.1 (isIdentifier_all h) _ hx)⟩

/-! ### Where markup ends -/

/-- An ending whose last character stands only at its end overlaps no other place where it
stands. -/
theorem not_prefix_append {start : List Char} {last : Char} (hlast : last ∉ start)
    (hpart : ¬ start ++ [last] <:+: part) (hne : part ≠ []) (rest : List Char) :
    ¬ start ++ [last] <+: part ++ (start ++ [last] ++ rest) := by
  intro hprefix
  rcases List.prefix_or_prefix_of_prefix hprefix (List.prefix_append part _) with hin | hin
  · exact hpart hin.isInfix
  · rcases List.prefix_concat_iff.1 hin with heq | ⟨behind, hbehind⟩
    · exact hpart (heq ▸ List.infix_rfl)
    · -- Behind the text, the rest of the ending would stand in front of its last character.
      have hsecond : behind ++ [last] <+: start ++ ([last] ++ rest) := by
        rw [← List.append_assoc]
        refine (List.prefix_append_right_inj part).1 ?_
        rw [← List.append_assoc, hbehind]
        exact hprefix
      have hshort : (behind ++ [last]).length ≤ start.length := by
        have hpositive := List.length_pos_of_ne_nil hne
        rw [← hbehind, List.length_append, List.length_append, List.length_singleton]
        omega
      have hstart := List.prefix_of_prefix_length_le hsecond (List.prefix_append _ _) hshort
      exact hlast (hstart.subset (List.mem_append_right behind (List.mem_singleton_self last)))

theorem splitAtEnding_append (start : List Char) {last : Char} (hlast : last ∉ start)
    (hpart : ¬ start ++ [last] <:+: part) (rest : List Char) :
    splitAtEnding (start ++ [last]) (part ++ (start ++ [last] ++ rest)) = some (part, rest) := by
  induction part with
  | nil =>
    obtain ⟨x, xs, hx⟩ : ∃ x xs, start ++ [last] ++ rest = x :: xs :=
      List.exists_cons_of_ne_nil (by simp)
    have hfound : (start ++ [last]).isPrefixOf (x :: xs) = true :=
      List.isPrefixOf_iff_prefix.2 (hx ▸ List.prefix_append (start ++ [last]) rest)
    rw [List.nil_append, hx, splitAtEnding, if_pos hfound, ← hx, List.drop_left]
  | cons c part ih =>
    have hother := not_prefix_append hlast hpart (List.cons_ne_nil c part) rest
    rw [List.cons_append] at hother ⊢
    rw [splitAtEnding, if_neg (fun h => hother (List.isPrefixOf_iff_prefix.1 h)),
      ih fun hin => hpart (List.infix_cons hin)]
    rfl

theorem splitTag_cons (hend : c ≠ '>') (hquote : c ≠ '"' ∧ c ≠ '\'') (rest : List Char) :
    splitTag none (c :: rest) = (splitTag none rest).map fun r => (c :: r.1, r.2) := by
  rw [splitTag, if_neg hend]
  simp only [hquote.1, hquote.2, or_self, if_false]

theorem splitTag_name (h : ∀ x ∈ part, isNameChar x = true) (rest : List Char) :
    splitTag none (part ++ rest) = (splitTag none rest).map fun r => (part ++ r.1, r.2) := by
  induction part with
  | nil => exact (Option.map_id' (x := splitTag none rest)).symm
  | cons c part ih =>
    obtain ⟨hc, hpart⟩ := List.forall_mem_cons.1 h
    rw [List.cons_append, splitTag_cons (ne_of_isNameChar hc rfl)
      ⟨ne_of_isNameChar hc rfl, ne_of_isNameChar hc rfl⟩, ih hpart, Option.map_map]
    rfl

theorem splitTag_quoted (h : '"' ∉ part) (rest : List Char) :
    splitTag none ('"' :: (part ++ '"' :: rest)) =
      (splitTag none rest).map fun r => ('"' :: (part ++ '"' :: r.1), r.2) := by
  have hinside : splitTag (some '"') (part ++ '"' :: rest) =
      (splitTag none rest).map fun r => (part ++ '"' :: r.1, r.2) := by
    induction part with
    | nil =>
      rw [List.nil_append, splitTag, if_pos rfl]
      rfl
    | cons c part ih =>
      rw [List.mem_cons, not_or] at h
      rw [List.cons_append, splitTag, if_neg (Ne.symm h.1), ih h.2, Option.map_map]
      rfl
  rw [splitTag, if_neg (by decide)]
  simp only [true_or, if_true, hinside, Option.map_map]
  rfl

theorem splitTag_end (rest : List Char) : splitTag none ('>' :: rest) = some ([], rest) := rfl

/-! ### Kinds of markup -/

theorem markup_instruction (hstart : part.head? ≠ some '>') (hpart : ¬ ['?', '>'] <:+: part)
    (rest : List Char) :
    Token.markup ('?' :: (part ++ '?' :: '>' :: rest)) = some (.passedOver, rest) := by
  have hsplit := splitAtEnding_append ['?'] (by decide) hpart rest
  rw [Token.markup]
  · exact congrArg (Option.map fun r => (Token.passedOver, r.2)) hsplit
  · intro _ heq
    cases part with
    | nil => cases heq
    | cons c part => exact hstart (congrArg some (List.cons.inj heq).1)

theorem markup_comment (hpart : ¬ ['-', '-', '>'] <:+: part) (rest : List Char) :
    Token.markup ('!' :: '-' :: '-' :: (part ++ '-' :: '-' :: '>' :: rest)) =
      some (.passedOver, rest) := by
  have hsplit := splitAtEnding_append ['-', '-'] (by decide) hpart rest
  rw [Token.markup, Token.bang]
  exact congrArg (Option.map fun r => (Token.passedOver, r.2)) hsplit

theorem splitDeclaration_append (hopen : '<' ∉ part) (hclose : '>' ∉ part) (rest : List Char) :
    splitDeclaration 0 (part ++ '>' :: rest) = some (part, rest) := by
  induction part with
  | nil => rfl
  | cons c part ih =>
    rw [List.mem_cons, not_or] at hopen hclose
    rw [List.cons_append, splitDeclaration, if_neg fun h => hclose.1 h.1.symm,
      if_neg (Ne.symm hopen.1), if_neg (Ne.symm hclose.1)]
    exact congrArg (Option.map fun r : List Char × List Char => (c :: r.1, r.2))
      (ih hopen.2 hclose.2)

theorem markup_doctype (hopen : '<' ∉ part) (hclose : '>' ∉ part)
    (hname : part.all isSpace = false) (rest : List Char) :
    Token.markup ('!' :: ("DOCTYPE".toList ++ (part ++ '>' :: rest))) =
      some (.passedOver, rest) := by
  have hsplit := splitDeclaration_append hopen hclose rest
  show Token.bang ('D' :: 'O' :: 'C' :: 'T' :: 'Y' :: 'P' :: 'E' :: (part ++ '>' :: rest)) = _
  have hkeyword : (("DOCTYPE".toList ++ (part ++ '>' :: rest)).take 7).map Char.toUpper =
      "DOCTYPE".toList := rfl
  rw [Token.bang]
  · refine (if_pos hkeyword).trans ?_
    simp only [List.drop_succ_cons, List.drop_zero, hsplit]
    exact if_neg (by rw [hname]; exact Bool.false_ne_true)
  · exact fun _ heq => by cases heq
  · exact fun _ heq => by cases heq

/-- A tag whose name starts like no other markup starts an element. -/
theorem markup_start (hc : c ≠ '!' ∧ c ≠ '?' ∧ c ≠ '/')
    (h : splitTag none (c :: cs) = some (part, rest)) :
    Token.markup (c :: cs) = some (.ofTag part, rest) := by
  rw [Token.markup]
  · rw [h]
    rfl
  · exact List.cons_ne_nil _ _
  · exact fun _ heq => hc.1 (List.cons.inj heq).1
  · exact fun _ heq => hc.2.1 (List.cons.inj heq).1
  · exact fun _ heq => hc.2.1 (List.cons.inj heq).1
  · exact fun _ heq => hc.2.2 (List.cons.inj heq).1

/-! ### Texts and values -/

theorem unescapeFrom_append (h : '&' ∉ part) (rest : List Char) :
    unescapeFrom none (part ++ rest) = (unescapeFrom none rest).map (part ++ ·) := by
  induction part with
  | nil => exact (Option.map_id' (x := unescapeFrom none rest)).symm
  | cons c part ih =>
    rw [List.mem_cons, not_or] at h
    rw [List.cons_append, unescapeFrom, if_neg (Ne.symm h.1), ih h.2, Option.map_map]
    rfl

theorem not_mem_escapeChar (c : Char) : '<' ∉ escapeChar c ∧ '"' ∉ escapeChar c := by
  unfold escapeChar
  split
  · decide
  · decide
  · decide
  · decide
  · rename_i hmarkup _ hquote
    rw [List.mem_singleton, List.mem_singleton]
    exact ⟨fun heq => hmarkup heq.symm, fun heq => hquote heq.symm⟩

/-- An escaped text holds no markup and ends no value. -/
theorem not_mem_escape (cs : List Char) : '<' ∉ escape cs ∧ '"' ∉ escape cs := by
  constructor
  · intro h
    obtain ⟨c, -, hc⟩ := List.mem_flatMap.1 h
    exact (not_mem_escapeChar c).1 hc
  · intro h
    obtain ⟨c, -, hc⟩ := List.mem_flatMap.1 h
    exact (not_mem_escapeChar c).2 hc

theorem escape_of_isNameChar (h : ∀ x ∈ cs, isNameChar x = true) : escape cs = cs := by
  have hself (x : Char) (hx : isNameChar x = true) : escapeChar x = [x] := by
    unfold escapeChar
    split
    · exact absurd hx (by decide)
    · exact absurd hx (by decide)
    · exact absurd hx (by decide)
    · exact absurd hx (by decide)
    · rfl
  rw [escape, List.flatMap_congr fun x hx => hself x (h x hx), List.flatMap_singleton']

/-! ### Tags -/

/-- Whether the attributes of a tag have names, and no two of them the same. -/
structure WellNamed (attributes : List (String × String)) : Prop where
  names : ∀ a ∈ attributes, IsTagName a.1.toList
  distinct : (attributes.map Prod.fst).Nodup

theorem WellNamed.nil : WellNamed [] := ⟨fun _ h => absurd h List.not_mem_nil, List.nodup_nil⟩

theorem WellNamed.singleton {name : String} (h : IsTagName name.toList) (value : String) :
    WellNamed [(name, value)] where
  names := List.forall_mem_singleton.2 h
  distinct := List.pairwise_singleton _ _

theorem takeWhile_append_cons {p : Char → Bool} (h : ∀ x ∈ part, p x = true) (hc : p c = false)
    (rest : List Char) : (part ++ c :: rest).takeWhile p = part := by
  rw [List.takeWhile_append_of_pos h, List.takeWhile_cons_of_neg (by simp [hc]), List.append_nil]

theorem dropWhile_append_cons {p : Char → Bool} (h : ∀ x ∈ part, p x = true) (hc : p c = false)
    (rest : List Char) : (part ++ c :: rest).dropWhile p = c :: rest := by
  rw [List.dropWhile_append_of_pos h, List.dropWhile_cons_of_neg (by simp [hc])]

/-- An attribute as it stands in a tag, with the blank in front of it. -/
def attributeText (a : String × String) : List Char :=
  ' ' :: (a.1.toList ++ '=' :: '"' :: (escape a.2.toList ++ ['"']))

theorem readAttributes_attributeText {a : String × String} (hname : IsTagName a.1.toList)
    {taken : List (List Char)} (htaken : a.1.toList ∉ taken) (fuel : Nat) (rest : List Char) :
    readAttributes (fuel + 1) taken (attributeText a ++ rest) =
      (readAttributes fuel (a.1.toList :: taken) rest).map (a :: ·) := by
  obtain ⟨name, value⟩ := a
  obtain ⟨first, more, hcons⟩ := List.exists_cons_of_ne_nil hname.1
  have hall := hname.2
  simp only at hcons hall htaken
  rw [hcons] at hall htaken
  have hshape : attributeText (name, value) ++ rest =
      ' ' :: first :: (more ++ '=' :: '"' :: (escape value.toList ++ '"' :: rest)) := by
    simp only [attributeText, hcons, List.cons_append, List.append_assoc, List.nil_append]
  have hblank : (' ' :: first :: (more ++ '=' :: '"' :: (escape value.toList ++
      '"' :: rest))).dropWhile isSpace =
        first :: (more ++ '=' :: '"' :: (escape value.toList ++ '"' :: rest)) := by
    rw [List.dropWhile_cons_of_pos (by decide), List.dropWhile_cons_of_neg
      (by simp [isSpace_of_isNameChar (hall first List.mem_cons_self)])]
  have hin : ∀ x ∈ more, (x != '=' && !isSpace x) = true := by
    intro x hx
    have hchar := hall x (List.mem_cons_of_mem first hx)
    have hequals : x ≠ '=' := ne_of_isNameChar hchar rfl
    simp [hequals, isSpace_of_isNameChar hchar]
  have hquote : ∀ x ∈ escape value.toList, (x != '"') = true := fun x hx =>
    bne_iff_ne.2 fun heq => (not_mem_escape value.toList).2 (heq ▸ hx)
  have hspace : ('"' :: (escape value.toList ++ '"' :: rest)).dropWhile isSpace =
      '"' :: (escape value.toList ++ '"' :: rest) := rfl
  have hequals : ('=' :: '"' :: (escape value.toList ++ '"' :: rest)).dropWhile isSpace =
      '=' :: '"' :: (escape value.toList ++ '"' :: rest) := rfl
  have hend : ('=' != '=' && !isSpace '=') = false := rfl
  have hlast : ('"' != '"') = false := rfl
  rw [hshape, readAttributes, hblank]
  simp only [takeWhile_append_cons hin hend, dropWhile_append_cons hin hend, hequals, hspace,
    takeWhile_append_cons hquote hlast, dropWhile_append_cons hquote hlast, if_neg htaken,
    unescape_escape]
  rw [if_pos (.inl trivial), ← hcons, String.ofList_toList]
  cases readAttributes fuel (name.toList :: taken) rest with
  | none => rfl
  | some more => exact congrArg (fun v => some ((name, v) :: more)) String.ofList_toList

theorem readAttributes_written {attributes : List (String × String)} (h : WellNamed attributes)
    {taken : List (List Char)} (htaken : ∀ a ∈ attributes, a.1.toList ∉ taken) {fuel : Nat}
    (hfuel : attributes.length < fuel) :
    readAttributes fuel taken (attributes.flatMap attributeText) = some attributes := by
  induction attributes generalizing taken fuel with
  | nil =>
    cases fuel with
    | zero => cases hfuel
    | succ fuel => rfl
  | cons a attributes ih =>
    cases fuel with
    | zero => cases hfuel
    | succ fuel =>
      obtain ⟨hname, hnames⟩ := List.forall_mem_cons.1 h.names
      obtain ⟨hfree, hfrees⟩ := List.forall_mem_cons.1 htaken
      have hdistinct := List.nodup_cons.1 h.distinct
      have hnew : ∀ b ∈ attributes, b.1.toList ∉ a.1.toList :: taken := by
        intro b hb hmem
        rcases List.mem_cons.1 hmem with heq | hmem
        · exact hdistinct.1 (String.toList_inj.1 heq ▸ List.mem_map_of_mem hb)
        · exact hfrees b hb hmem
      rw [List.length_cons] at hfuel
      rw [List.flatMap_cons, readAttributes_attributeText hname hfree,
        ih ⟨hnames, hdistinct.2⟩ hnew (by omega), Option.map_some]

theorem splitTag_attributes {attributes : List (String × String)} (h : WellNamed attributes)
    (rest : List Char) :
    splitTag none (attributes.flatMap attributeText ++ rest) =
      (splitTag none rest).map fun r => (attributes.flatMap attributeText ++ r.1, r.2) := by
  have hnames := h.names
  clear h
  induction attributes with
  | nil => exact (Option.map_id' (x := splitTag none rest)).symm
  | cons a attributes ih =>
    obtain ⟨hname, hnames⟩ := List.forall_mem_cons.1 hnames
    have hshape (cs : List Char) : (a :: attributes).flatMap attributeText ++ cs =
        ' ' :: (a.1.toList ++ '=' :: '"' :: (escape a.2.toList ++ '"' ::
          (attributes.flatMap attributeText ++ cs))) := by
      simp only [List.flatMap_cons, attributeText, List.cons_append, List.append_assoc,
        List.nil_append]
    simp only [hshape]
    rw [splitTag_cons (by decide) (by decide), splitTag_name hname.2,
      splitTag_cons (by decide) (by decide), splitTag_quoted (not_mem_escape a.2.toList).2,
      ih hnames]
    simp only [Option.map_map]
    rfl

theorem not_isSpace_of_isNameChar (h : ∀ x ∈ part, isNameChar x = true) :
    ∀ x ∈ part, (!isSpace x) = true := fun x hx => by rw [isSpace_of_isNameChar (h x hx)]; rfl

theorem getLast?_attributes {name : List Char} (hname : IsTagName name)
    (attributes : List (String × String)) :
    (name ++ attributes.flatMap attributeText).getLast? ≠ some '/' := by
  rcases List.eq_nil_or_concat attributes with rfl | ⟨front, a, rfl⟩
  · rw [List.flatMap_nil, List.append_nil]
    exact fun heq => ne_of_isNameChar (hname.2 _ (List.mem_of_getLast? heq)) rfl rfl
  · have hshape : name ++ (front ++ [a]).flatMap attributeText = (name ++
        (front.flatMap attributeText ++ ' ' :: (a.1.toList ++ '=' :: '"' :: escape a.2.toList))) ++
          ['"'] := by
      simp only [List.flatMap_append, List.flatMap_singleton, attributeText, List.cons_append,
        List.append_assoc]
    rw [List.concat_eq_append, hshape, List.getLast?_concat]
    decide

/-- **A start tag is read as it was written.** -/
theorem ofTag_written {name : List Char} (hname : IsTagName name)
    {attributes : List (String × String)} (h : WellNamed attributes) :
    Token.ofTag (name ++ attributes.flatMap attributeText) =
      .start (String.ofList name) attributes := by
  have hin : ∀ x ∈ name, (!isSpace x) = true := not_isSpace_of_isNameChar hname.2
  have hsplit : (name ++ attributes.flatMap attributeText).takeWhile (fun x => !isSpace x) = name ∧
      (name ++ attributes.flatMap attributeText).dropWhile (fun x => !isSpace x) =
        attributes.flatMap attributeText := by
    cases attributes with
    | nil =>
      rw [List.flatMap_nil, List.append_nil]
      exact ⟨List.takeWhile_eq_self_iff.2 hin, List.dropWhile_eq_nil_iff.2 hin⟩
    | cons a attributes =>
      exact ⟨takeWhile_append_cons hin rfl _, dropWhile_append_cons hin rfl _⟩
  have hcount : attributes.length ≤ (attributes.flatMap attributeText).length := by
    have hpositive : ∀ n ∈ attributes.map fun a => (attributeText a).length, 1 ≤ n := by
      intro n hn
      obtain ⟨a, -, rfl⟩ := List.mem_map.1 hn
      exact Nat.succ_le_of_lt (Nat.succ_pos _)
    rw [List.length_flatMap]
    simpa using List.length_le_sum_of_one_le _ hpositive
  have hfuel : attributes.length < (name ++ attributes.flatMap attributeText).length + 1 := by
    rw [List.length_append]
    omega
  have hread := readAttributes_written h (fun _ _ => List.not_mem_nil) hfuel
  rw [Token.ofTag]
  simp only [if_neg (getLast?_attributes hname attributes), hsplit.1, hsplit.2, hread]

theorem ofEndTag_name (h : ∀ x ∈ part, isNameChar x = true) :
    Token.ofEndTag part = .close (String.ofList part) := by
  have hdrop : part.reverse.dropWhile isSpace = part.reverse := by
    cases hpart : part.reverse with
    | nil => rfl
    | cons x rest =>
      have hx : x ∈ part := List.mem_reverse.1 (hpart ▸ List.mem_cons_self)
      exact List.dropWhile_cons_of_neg (by simp [isSpace_of_isNameChar (h x hx)])
  rw [Token.ofEndTag, hdrop]
  cases hpart : part.reverse with
  | nil => rfl
  | cons x rest =>
    show Token.close (String.ofList (x :: rest).reverse) = _
    rw [← hpart, List.reverse_reverse]

/-! ### Sequences of tokens -/

/-- Whether a text has the given tokens, with any fuel that is enough. -/
def Scans (cs : List Char) (tokens : List Token) : Prop :=
  ∀ fuel, cs.length < fuel → Token.scanWith fuel cs = tokens

namespace Scans

theorem nil : Scans [] [] := by
  intro fuel h
  cases fuel with
  | zero => cases h
  | succ fuel => rfl

theorem markup (hmarkup : Token.markup cs = some (token, rest)) (hlength : rest.length ≤ cs.length)
    (h : Scans rest tokens) : Scans ('<' :: cs) (token :: tokens) := by
  intro fuel hfuel
  cases fuel with
  | zero => cases hfuel
  | succ fuel =>
    rw [List.length_cons] at hfuel
    rw [Token.scanWith, hmarkup]
    exact congrArg (token :: ·) (h fuel (by omega))

theorem head_markup (cs : List Char) : ∀ x ∈ ('<' :: cs).head?, x = '<' :=
  fun _ hx => (Option.mem_some_iff.1 hx).symm

/-- A text ends where markup begins, or where all ends. -/
theorem text (hne : part ≠ []) (hpart : '<' ∉ part) (hrest : ∀ x ∈ rest.head?, x = '<')
    (h : Scans rest tokens) : Scans (part ++ rest) (.ofText part :: tokens) := by
  intro fuel hfuel
  cases fuel with
  | zero => cases hfuel
  | succ fuel =>
    have hin : ∀ x ∈ part, (x != '<') = true := fun x hx => bne_iff_ne.2 fun heq =>
      hpart (heq ▸ hx)
    have htake : (part ++ rest).takeWhile (· != '<') = part := by
      cases rest with
      | nil => rw [List.append_nil, List.takeWhile_eq_self_iff.2 hin]
      | cons x rest => exact takeWhile_append_cons hin (by rw [hrest x rfl]; rfl) rest
    have hdrop : (part ++ rest).dropWhile (· != '<') = rest := by
      cases rest with
      | nil => rw [List.append_nil, List.dropWhile_eq_nil_iff.2 hin]
      | cons x rest => exact dropWhile_append_cons hin (by rw [hrest x rfl]; rfl) rest
    obtain ⟨c, cs, rfl⟩ := List.exists_cons_of_ne_nil hne
    rw [List.length_append, List.length_cons] at hfuel
    rw [List.cons_append] at htake hdrop ⊢
    rw [Token.scanWith, htake, hdrop, h fuel (by omega)]
    · exact fun heq => absurd heq (List.cons_ne_nil _ _)
    · exact fun _ heq => hpart ((List.cons.inj heq).1 ▸ List.mem_cons_self)

/-- A text that may be empty, and then is no token. -/
theorem optionalText (hpart : '<' ∉ part) (hrest : ∀ x ∈ rest.head?, x = '<')
    (h : Scans rest tokens) :
    Scans (part ++ rest) ((if part = [] then [] else [.ofText part]) ++ tokens) := by
  split
  · rename_i hnil
    rw [hnil]
    exact h
  · rename_i hne
    exact text hne hpart hrest h

/-! ### Tokens by their markup -/

theorem instruction (hstart : part.head? ≠ some '>') (hpart : ¬ ['?', '>'] <:+: part)
    (h : Scans rest tokens) :
    Scans ('<' :: '?' :: (part ++ '?' :: '>' :: rest)) (.passedOver :: tokens) :=
  markup (markup_instruction hstart hpart rest) (by simp; omega) h

theorem comment (hpart : ¬ ['-', '-', '>'] <:+: part) (h : Scans rest tokens) :
    Scans ('<' :: '!' :: '-' :: '-' :: (part ++ '-' :: '-' :: '>' :: rest))
      (.passedOver :: tokens) :=
  markup (markup_comment hpart rest) (by simp; omega) h

theorem endTag (part : List Char) (hpart : ∀ x ∈ part, isNameChar x = true)
    (h : Scans rest tokens) :
    Scans ('<' :: '/' :: (part ++ '>' :: rest)) (.close (String.ofList part) :: tokens) := by
  have hmarkup : Token.markup ('/' :: (part ++ '>' :: rest)) = some (.ofEndTag part, rest) := by
    rw [Token.markup, splitTag_name hpart, splitTag_end, Option.map_some, Option.map_some,
      List.append_nil]
  rw [ofEndTag_name hpart] at hmarkup
  exact markup hmarkup (by simp; omega) h

theorem startTag {name : List Char} (hname : IsTagName name)
    {attributes : List (String × String)} (hattributes : WellNamed attributes)
    (h : Scans rest tokens) :
    Scans ('<' :: (name ++ (attributes.flatMap attributeText ++ '>' :: rest)))
      (.start (String.ofList name) attributes :: tokens) := by
  have hsplit : splitTag none (name ++ (attributes.flatMap attributeText ++ '>' :: rest)) =
      some (name ++ attributes.flatMap attributeText, rest) := by
    rw [splitTag_name hname.2, splitTag_attributes hattributes, splitTag_end, Option.map_some,
      Option.map_some, List.append_nil]
  obtain ⟨c, part, rfl⟩ := List.exists_cons_of_ne_nil hname.1
  have hc := hname.2 c List.mem_cons_self
  have hmarkup := markup_start
    ⟨ne_of_isNameChar hc rfl, ne_of_isNameChar hc rfl, ne_of_isNameChar hc rfl⟩ hsplit
  rw [ofTag_written hname hattributes] at hmarkup
  exact markup hmarkup (by simp; omega) h

end Scans

end ResourceCompiler.Xml
