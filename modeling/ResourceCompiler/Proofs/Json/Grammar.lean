import ResourceCompiler.Proofs.Json.Token

/-!
# Every spelling of a value is read

The grammar of JSON as a relation between texts and the values they spell. Blanks may stand around
every value, name and sign, and every string denotes a text. Whatever spells a value is read as that
value.

* `Spells`, `SpellsElement`: values, and values with the blanks around them.
* `Spells.readValue`: a value is read, whatever stops it.
* `read_of_spells`: a text that spells a value is read as it.
-/

namespace ResourceCompiler.Json

/-! ### The grammar -/

/-- Whether characters are all blanks. -/
def Blank (cs : List Char) : Prop := ∀ c ∈ cs, isSpace c = true

theorem blank_nil : Blank [] := fun _ hc => absurd hc List.not_mem_nil

mutual

/-- Whether a text spells a value, with no blanks around it. -/
inductive Spells : List Char → Json → Prop
  | nullWord : Spells ['n', 'u', 'l', 'l'] .null
  | trueWord : Spells ['t', 'r', 'u', 'e'] (.bool true)
  | falseWord : Spells ['f', 'a', 'l', 's', 'e'] (.bool false)
  | number {cs : List Char} (h : IsNumber cs) : Spells cs (.number cs)
  | string {cs s : List Char} (h : SpellsText cs s) :
      Spells ('"' :: (cs ++ ['"'])) (.text (String.ofList s))
  | noItems {blanks : List Char} (h : Blank blanks) : Spells ('[' :: (blanks ++ [']'])) (.array [])
  | array {cs : List Char} {items : List Json} (h : SpellsItems cs items) :
      Spells ('[' :: (cs ++ [']'])) (.array items)
  | noMembers {blanks : List Char} (h : Blank blanks) :
      Spells ('\x7b' :: (blanks ++ ['\x7d'])) (.object [])
  | object {cs : List Char} {members : List (Option String × Json)} (h : SpellsMembers cs members) :
      Spells ('\x7b' :: (cs ++ ['\x7d'])) (.object members)

/-- Whether a text spells a value with blanks around it. -/
inductive SpellsElement : List Char → Json → Prop
  | around {front cs back : List Char} {j : Json} (hfront : Blank front) (h : Spells cs j)
      (hback : Blank back) : SpellsElement (front ++ (cs ++ back)) j

/-- Whether a text spells items with commas between them. -/
inductive SpellsItems : List Char → List Json → Prop
  | last {cs : List Char} {item : Json} (h : SpellsElement cs item) : SpellsItems cs [item]
  | next {cs rest : List Char} {item : Json} {items : List Json} (h : SpellsElement cs item)
      (hrest : SpellsItems rest items) : SpellsItems (cs ++ ',' :: rest) (item :: items)

/-- Whether a text spells a member. -/
inductive SpellsMember : List Char → Option String × Json → Prop
  | named {front name s back cs : List Char} {value : Json} (hfront : Blank front)
      (hname : SpellsText name s) (hback : Blank back) (h : SpellsElement cs value) :
      SpellsMember (front ++ '"' :: (name ++ '"' :: (back ++ ':' :: cs)))
        (some (String.ofList s), value)

/-- Whether a text spells members with commas between them. -/
inductive SpellsMembers : List Char → List (Option String × Json) → Prop
  | last {cs : List Char} {member : Option String × Json} (h : SpellsMember cs member) :
      SpellsMembers cs [member]
  | next {cs rest : List Char} {member : Option String × Json}
      {members : List (Option String × Json)} (h : SpellsMember cs member)
      (hrest : SpellsMembers rest members) : SpellsMembers (cs ++ ',' :: rest) (member :: members)

end

/-! ### Blanks in front -/

theorem skipSpace_append {blanks : List Char} (h : Blank blanks) (cs : List Char) :
    skipSpace (blanks ++ cs) = skipSpace cs :=
  List.dropWhile_append_of_pos h

theorem skipSpace_cons {c : Char} (h : isSpace c = false) (cs : List Char) :
    skipSpace (c :: cs) = c :: cs := by
  rw [skipSpace, List.dropWhile_cons_of_neg]
  rw [h]
  exact Bool.false_ne_true

theorem skipSpace_skipSpace (cs : List Char) : skipSpace (skipSpace cs) = skipSpace cs := by
  induction cs with
  | nil => rfl
  | cons c cs ih =>
    by_cases hc : isSpace c = true
    · have hskip : skipSpace (c :: cs) = skipSpace cs := List.dropWhile_cons_of_pos hc
      rw [hskip, ih]
    · have hstay := skipSpace_cons (Bool.eq_false_iff.2 hc) cs
      rw [hstay, hstay]

theorem isSpace_of_isDigit {c : Char} (h : c.isDigit = true) : isSpace c = false := by
  cases hs : isSpace c with
  | false => rfl
  | true =>
    simp only [isSpace, Bool.or_eq_true, beq_iff_eq] at hs
    rcases hs with ((rfl | rfl) | rfl) | rfl <;> exact absurd h (by decide)

theorem readValue_skipSpace (fuel : Nat) (cs : List Char) :
    readValue fuel (skipSpace cs) = readValue fuel cs := by
  cases fuel with
  | zero => rfl
  | succ fuel => rw [readValue, readValue, skipSpace_skipSpace]

theorem readItems_skipSpace (fuel : Nat) (cs : List Char) :
    readItems fuel (skipSpace cs) = readItems fuel cs := by
  cases fuel with
  | zero => rfl
  | succ fuel => rw [readItems, readItems, readValue_skipSpace]

theorem readMembers_skipSpace (fuel : Nat) (cs : List Char) :
    readMembers fuel (skipSpace cs) = readMembers fuel cs := by
  cases fuel with
  | zero => rfl
  | succ fuel => rw [readMembers, readMembers, skipSpace_skipSpace]

theorem readValue_append {blanks : List Char} (h : Blank blanks) (fuel : Nat) (cs : List Char) :
    readValue fuel (blanks ++ cs) = readValue fuel cs := by
  rw [← readValue_skipSpace, skipSpace_append h, readValue_skipSpace]

theorem readMembers_append {blanks : List Char} (h : Blank blanks) (fuel : Nat) (cs : List Char) :
    readMembers fuel (blanks ++ cs) = readMembers fuel cs := by
  rw [← readMembers_skipSpace, skipSpace_append h, readMembers_skipSpace]

/-! ### How the text of a value starts -/

theorem Spells.eq_cons {cs : List Char} {j : Json} (h : Spells cs j) :
    ∃ c rest, cs = c :: rest ∧ isSpace c = false ∧ c ≠ ']' := by
  cases h with
  | number h =>
    obtain ⟨c, rest, rfl, hc⟩ := h.eq_cons
    refine ⟨c, rest, rfl, ?_⟩
    rcases hc with hc | rfl
    · refine ⟨isSpace_of_isDigit hc, ?_⟩
      rintro rfl
      exact absurd hc (by decide)
    · decide
  | _ => exact ⟨_, _, rfl, rfl, by decide⟩

theorem SpellsElement.head_skipSpace {cs : List Char} {j : Json} (h : SpellsElement cs j)
    (rest : List Char) : (skipSpace (cs ++ rest)).head? ≠ some ']' := by
  obtain ⟨hfront, h, -⟩ := h
  obtain ⟨c, cs, rfl, hc, hne⟩ := h.eq_cons
  rw [List.append_assoc, skipSpace_append hfront, List.append_assoc, List.cons_append,
    skipSpace_cons hc]
  exact fun heq => hne (Option.some.inj heq)

theorem SpellsItems.head_skipSpace {cs : List Char} {items : List Json} (h : SpellsItems cs items)
    (rest : List Char) : (skipSpace (cs ++ rest)).head? ≠ some ']' := by
  cases h with
  | last h => exact h.head_skipSpace rest
  | next h =>
    rw [List.append_assoc]
    exact h.head_skipSpace _

theorem SpellsMember.head_skipSpace {cs : List Char} {member : Option String × Json}
    (h : SpellsMember cs member) (rest : List Char) :
    (skipSpace (cs ++ rest)).head? = some '"' := by
  obtain ⟨hfront, -, -, -⟩ := h
  rw [List.append_assoc, skipSpace_append hfront, List.cons_append, skipSpace_cons rfl]
  rfl

theorem SpellsMembers.head_skipSpace {cs : List Char} {members : List (Option String × Json)}
    (h : SpellsMembers cs members) (rest : List Char) :
    (skipSpace (cs ++ rest)).head? = some '"' := by
  cases h with
  | last h => exact h.head_skipSpace rest
  | next h =>
    rw [List.append_assoc]
    exact h.head_skipSpace _

/-- What stands behind an item or member stops a number. -/
theorem stops_append {blanks cs : List Char} (hblanks : Blank blanks) (h : Stops cs) :
    Stops (blanks ++ cs) := by
  cases blanks with
  | nil => exact h
  | cons c blanks => exact stops_cons (.inl (hblanks c List.mem_cons_self))

/-! ### One step of the readers -/

theorem readValue_array {fuel : Nat} {cs : List Char} (h : (skipSpace cs).head? ≠ some ']') :
    readValue (fuel + 1) ('[' :: cs) =
      (readItems fuel cs).map fun (items, rest) => (array items, rest) := by
  have hstop : isSpace '[' = false := rfl
  simp only [readValue, skipSpace_cons hstop]
  split
  · rename_i heq
    rw [heq] at h
    exact absurd rfl h
  · rw [readItems_skipSpace]

theorem readValue_object {fuel : Nat} {cs : List Char} (h : (skipSpace cs).head? = some '"') :
    readValue (fuel + 1) ('\x7b' :: cs) =
      (readMembers fuel cs).map fun (members, rest) => (object members, rest) := by
  have hstop : isSpace '\x7b' = false := rfl
  simp only [readValue, skipSpace_cons hstop]
  split
  · rename_i heq
    rw [heq] at h
    exact absurd (Option.some.inj h) (by decide)
  · rw [readMembers_skipSpace]

theorem readValue_number {cs : List Char} (h : IsNumber cs) (fuel : Nat) {rest : List Char}
    (hrest : Stops rest) : readValue (fuel + 1) (cs ++ rest) = some (.number cs, rest) := by
  have hread := h.readNumber hrest
  obtain ⟨c, cs, rfl, hc⟩ := h.eq_cons
  have hspace : isSpace c = false := by
    rcases hc with hc | rfl
    · exact isSpace_of_isDigit hc
    · rfl
  rw [List.cons_append] at hread ⊢
  rw [readValue, skipSpace_cons hspace]
  split
  -- no word, quote or bracket starts with a digit or the sign
  iterate 6
    · rename_i heq
      rw [(List.cons.inj heq).1] at hc
      exact absurd hc (by decide)
  · rw [hread]
    rfl

theorem readValue_text {cs s : List Char} (h : SpellsText cs s) (fuel : Nat) (rest : List Char) :
    readValue (fuel + 1) ('"' :: (cs ++ ['"']) ++ rest) =
      some (.text (String.ofList s), rest) := by
  rw [List.cons_append, List.append_assoc, readValue, skipSpace_cons rfl]
  show (readString (cs ++ '"' :: rest)).map _ = _
  rw [h.readString]
  rfl

theorem readValue_noItems {blanks : List Char} (h : Blank blanks) (fuel : Nat)
    (rest : List Char) :
    readValue (fuel + 1) ('[' :: (blanks ++ [']']) ++ rest) = some (.array [], rest) := by
  have hskip : skipSpace (blanks ++ ']' :: rest) = ']' :: rest := by
    rw [skipSpace_append h, skipSpace_cons rfl]
  rw [List.cons_append, List.append_assoc, readValue, skipSpace_cons rfl]
  simp only [List.singleton_append, hskip]

theorem readValue_noMembers {blanks : List Char} (h : Blank blanks) (fuel : Nat)
    (rest : List Char) :
    readValue (fuel + 1) ('\x7b' :: (blanks ++ ['\x7d']) ++ rest) = some (.object [], rest) := by
  have hskip : skipSpace (blanks ++ '\x7d' :: rest) = '\x7d' :: rest := by
    rw [skipSpace_append h, skipSpace_cons rfl]
  rw [List.cons_append, List.append_assoc, readValue, skipSpace_cons rfl]
  simp only [List.singleton_append, hskip]

theorem readItems_last {fuel : Nat} {cs rest more : List Char} {item : Json}
    (h : readValue fuel cs = some (item, rest)) (hrest : skipSpace rest = ']' :: more) :
    readItems (fuel + 1) cs = some ([item], more) := by
  simp only [readItems, h, hrest]

theorem readItems_next {fuel : Nat} {cs rest more : List Char} {item : Json}
    (h : readValue fuel cs = some (item, rest)) (hrest : skipSpace rest = ',' :: more) :
    readItems (fuel + 1) cs =
      (readItems fuel more).map fun (items, rest) => (item :: items, rest) := by
  simp only [readItems, h, hrest]

section Members

variable {front name s back cs after more : List Char} {value : Json} {fuel : Nat}

theorem readMembers_last (hfront : Blank front) (hname : SpellsText name s) (hback : Blank back)
    (hvalue : readValue fuel cs = some (value, after)) (hafter : skipSpace after = '\x7d' :: more) :
    readMembers (fuel + 1) (front ++ '"' :: (name ++ '"' :: (back ++ ':' :: cs))) =
      some ([(some (String.ofList s), value)], more) := by
  have hcolon : skipSpace (back ++ ':' :: cs) = ':' :: cs := by
    rw [skipSpace_append hback, skipSpace_cons rfl]
  rw [readMembers_append hfront, readMembers, skipSpace_cons rfl]
  simp only [hname.readString, hcolon, hvalue, hafter]

theorem readMembers_next (hfront : Blank front) (hname : SpellsText name s) (hback : Blank back)
    (hvalue : readValue fuel cs = some (value, after)) (hafter : skipSpace after = ',' :: more) :
    readMembers (fuel + 1) (front ++ '"' :: (name ++ '"' :: (back ++ ':' :: cs))) =
      (readMembers fuel more).map fun (members, rest) =>
        ((some (String.ofList s), value) :: members, rest) := by
  have hcolon : skipSpace (back ++ ':' :: cs) = ':' :: cs := by
    rw [skipSpace_append hback, skipSpace_cons rfl]
  rw [readMembers_append hfront, readMembers, skipSpace_cons rfl]
  simp only [hname.readString, hcolon, hvalue, hafter]

end Members

/-! ### Whole values -/

/-- A value with blanks around it is read up to the blanks behind it. -/
theorem readValue_around {front cs back rest : List Char} {j : Json} {fuel : Nat}
    (hfront : Blank front) (hback : Blank back) (hrest : Stops rest)
    (h : ∀ after, Stops after → readValue fuel (cs ++ after) = some (j, after)) :
    ∃ after, readValue fuel (front ++ (cs ++ back) ++ rest) = some (j, after) ∧
      skipSpace after = skipSpace rest := by
  refine ⟨back ++ rest, ?_, skipSpace_append hback rest⟩
  rw [List.append_assoc, List.append_assoc, readValue_append hfront]
  exact h (back ++ rest) (stops_append hback hrest)

mutual

/-- What spells a value is read as it, whatever stops it. -/
theorem Spells.readValue {cs : List Char} {j : Json} : Spells cs j →
    ∀ fuel, cs.length ≤ fuel → ∀ {rest : List Char}, Stops rest →
      readValue fuel (cs ++ rest) = some (j, rest)
  | h, 0, hfuel, _, _ => by
    obtain ⟨c, rest, rfl, -⟩ := h.eq_cons
    cases hfuel
  | .nullWord, fuel + 1, _, rest, _ => rfl
  | .trueWord, fuel + 1, _, rest, _ => rfl
  | .falseWord, fuel + 1, _, rest, _ => rfl
  | .number h, fuel + 1, _, rest, hrest => readValue_number h fuel hrest
  | .string h, fuel + 1, _, rest, _ => readValue_text h fuel rest
  | .noItems h, fuel + 1, _, rest, _ => readValue_noItems h fuel rest
  | .noMembers h, fuel + 1, _, rest, _ => readValue_noMembers h fuel rest
  | .array h, fuel + 1, hfuel, rest, _ => by
    rw [List.length_cons, List.length_append, List.length_singleton] at hfuel
    have hitems := h.readItems fuel (by omega) rest
    rw [List.cons_append, List.append_assoc, readValue_array (h.head_skipSpace _),
      List.singleton_append, hitems]
    rfl
  | .object h, fuel + 1, hfuel, rest, _ => by
    rw [List.length_cons, List.length_append, List.length_singleton] at hfuel
    have hmembers := h.readMembers fuel (by omega) rest
    rw [List.cons_append, List.append_assoc, readValue_object (h.head_skipSpace _),
      List.singleton_append, hmembers]
    rfl

/-- What spells a value with blanks around it is read as the value. -/
theorem SpellsElement.readValue {cs : List Char} {j : Json} : SpellsElement cs j →
    ∀ fuel, cs.length ≤ fuel → ∀ {rest : List Char}, Stops rest →
      ∃ after, readValue fuel (cs ++ rest) = some (j, after) ∧ skipSpace after = skipSpace rest
  | .around hfront h hback, fuel, hfuel, rest, hrest => by
    rw [List.length_append, List.length_append] at hfuel
    exact readValue_around hfront hback hrest fun after hafter =>
      h.readValue fuel (by omega) hafter

/-- What spells items is read up to the closing bracket. -/
theorem SpellsItems.readItems {cs : List Char} {items : List Json} : SpellsItems cs items →
    ∀ fuel, cs.length < fuel → ∀ rest : List Char,
      readItems fuel (cs ++ ']' :: rest) = some (items, rest)
  | .last h, fuel + 1, hfuel, rest => by
    have hstop : Stops (']' :: rest) := stops_cons (by simp)
    obtain ⟨after, hread, hskip⟩ := h.readValue fuel (by omega) hstop
    exact readItems_last hread (hskip.trans (skipSpace_cons rfl rest))
  | @SpellsItems.next _ more _ _ h hmore, fuel + 1, hfuel, rest => by
    rw [List.length_append, List.length_cons] at hfuel
    have hstop : Stops (',' :: (more ++ ']' :: rest)) := stops_cons (by simp)
    obtain ⟨after, hread, hskip⟩ := h.readValue fuel (by omega) hstop
    rw [List.append_assoc, List.cons_append,
      readItems_next hread (hskip.trans (skipSpace_cons rfl _)),
      hmore.readItems fuel (by omega) rest]
    rfl

/-- What spells members is read up to the closing brace. -/
theorem SpellsMembers.readMembers {cs : List Char} {members : List (Option String × Json)} :
    SpellsMembers cs members → ∀ fuel, cs.length < fuel → ∀ rest : List Char,
      readMembers fuel (cs ++ '\x7d' :: rest) = some (members, rest)
  | .last (.named hfront hname hback h), fuel + 1, hfuel, rest => by
    simp only [List.length_append, List.length_cons] at hfuel
    have hstop : Stops ('\x7d' :: rest) := stops_cons (by simp)
    obtain ⟨after, hread, hskip⟩ := h.readValue fuel (by omega) hstop
    simp only [List.append_assoc, List.cons_append]
    exact readMembers_last hfront hname hback hread (hskip.trans (skipSpace_cons rfl _))
  | @SpellsMembers.next _ more _ _ (.named hfront hname hback h) hmore, fuel + 1, hfuel, rest => by
    simp only [List.length_append, List.length_cons] at hfuel
    have hstop : Stops (',' :: (more ++ '\x7d' :: rest)) := stops_cons (by simp)
    obtain ⟨after, hread, hskip⟩ := h.readValue fuel (by omega) hstop
    simp only [List.append_assoc, List.cons_append]
    rw [readMembers_next hfront hname hback hread (hskip.trans (skipSpace_cons rfl _)),
      hmore.readMembers fuel (by omega) rest]
    rfl

end

/-- **A text that spells a value is read as it.** -/
theorem read_of_spells {s : String} {j : Json} (h : SpellsElement s.toList j) :
    read s = some j := by
  have hstop : Stops [] := fun c hc => absurd hc (Option.not_mem_none c)
  obtain ⟨after, hread, hskip⟩ :=
    h.readValue (2 * s.toList.length + 1) (by omega) hstop
  rw [List.append_nil] at hread
  simp only [read, hread]
  exact if_pos hskip

end ResourceCompiler.Json
