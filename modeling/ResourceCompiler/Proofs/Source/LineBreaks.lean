import ResourceCompiler.Source.Escape

/-!
# Line breaks in resource text

A raw text is a sequence of escapes, which have two characters each, and of plain characters. It is
read in the same way with and without strict line breaks, so that it has the same fault, if it has
one; only what a plain line break stands for differs.

* `Item`: an escape or a plain character.
* `Item.raw_injective`: a text is one sequence of items only.
* `Stops`: what reading stops at.
* `resolveEscapes_eq_ok_iff`, `resolveEscapes_eq_error_iff`: the texts that are read, and the faults
  of the others.
* `normalize_strict`: texts read with strict line breaks and without them.
-/

namespace ResourceCompiler.Source

/-! ### Items -/

/-- A part of a raw text that is read in one step. A backslash is no plain character. -/
inductive Item where
  | escape (letter value : Char) (escaped : escaped? letter = some value)
  | plain (c : Char) (notMark : c ≠ '\\')

namespace Item

/-- The characters that an item is written with. -/
def raw : Item → List Char
  | escape letter _ _ => ['\\', letter]
  | plain c _ => [c]

/-- The character that an item stands for. -/
def char : Item → Char
  | escape _ value _ => value
  | plain c _ => c

/-- What an item leaves in a text without plain line breaks: a plain carriage return is deleted, and
a plain line feed is turned into a space. -/
def folded : Item → List Char
  | escape _ value _ => [value]
  | plain c _ => if c = '\r' then [] else if c = '\n' then [' '] else [c]

/-- Whether an item is the escape that breaks a line. -/
def isBreak : Item → Bool
  | escape letter _ _ => letter == 'n'
  | plain _ _ => false

/-- What an item is read as. -/
def text (strict : Bool) (item : Item) : List Char := if strict then item.folded else [item.char]

/-- A text is one sequence of items only: a backslash takes the character behind it along. -/
theorem raw_injective {items items' : List Item} (h : items.flatMap raw = items'.flatMap raw) :
    items = items' := by
  induction items generalizing items' with
  | nil =>
    cases items' with
    | nil => rfl
    | cons item' _ => cases item' <;> cases h
  | cons item items ih =>
    cases items' with
    | nil => cases item <;> cases h
    | cons item' items' =>
      rw [List.flatMap_cons, List.flatMap_cons] at h
      cases item with
      | escape letter value hvalue =>
        cases item' with
        | escape letter' value' hvalue' =>
          obtain ⟨-, htail⟩ := List.cons.inj h
          obtain ⟨rfl, hrest⟩ := List.cons.inj htail
          obtain rfl := Option.some.inj (hvalue.symm.trans hvalue')
          rw [ih hrest]
        | plain c' hc' => exact absurd (List.cons.inj h).1.symm hc'
      | plain c hc =>
        cases item' with
        | escape letter' value' hvalue' => exact absurd (List.cons.inj h).1 hc
        | plain c' hc' =>
          obtain ⟨rfl, hrest⟩ := List.cons.inj h
          rw [ih hrest]

end Item

/-! ### Reading -/

variable {strict : Bool} {cs rest out : List Char} {e : EscapeError}

/-- What reading stops at, and the fault that it has there. -/
inductive Stops : List Char → EscapeError → Prop where
  | loneBackslash : Stops ['\\'] .loneBackslash
  | unknown {c : Char} (h : escaped? c = none) (rest : List Char) :
      Stops ('\\' :: c :: rest) (.unknown c)

theorem resolveEscapes_item (item : Item) (rest : List Char) :
    resolveEscapes strict (item.raw ++ rest) =
      (resolveEscapes strict rest).map (item.text strict ++ ·) := by
  cases item with
  | escape letter value hvalue =>
    have htext : (Item.escape letter value hvalue).text strict = [value] := by cases strict <;> rfl
    rw [htext]
    exact resolveEscapes_escaped hvalue rest
  | plain c hc =>
    have htext : (Item.plain c hc).text strict = plainChar strict c := by
      cases strict with
      | false => rfl
      | true => simp [Item.text, Item.folded, plainChar]
    rw [htext]
    exact resolveEscapes_plain hc rest

/-- Items in front of a text are read one by one. -/
theorem resolveEscapes_items (items : List Item) (rest : List Char) :
    resolveEscapes strict (items.flatMap Item.raw ++ rest) =
      (resolveEscapes strict rest).map (items.flatMap (Item.text strict) ++ ·) := by
  induction items with
  | nil => cases hrest : resolveEscapes strict rest <;> simp [hrest, Except.map]
  | cons item items ih =>
    rw [List.flatMap_cons, List.flatMap_cons, List.append_assoc, resolveEscapes_item, ih]
    cases resolveEscapes strict rest with
    | error e => rfl
    | ok out => simp [Except.map]

theorem resolveEscapes_of_stops (h : Stops rest e) : resolveEscapes strict rest = .error e := by
  cases h with
  | loneBackslash => rfl
  | unknown h rest => rw [resolveEscapes, h]

/-- Every text is read up to its end or to a fault. -/
theorem exists_items (cs : List Char) :
    (∃ items : List Item, cs = items.flatMap Item.raw) ∨
      ∃ (items : List Item) (rest : List Char) (e : EscapeError),
        cs = items.flatMap Item.raw ++ rest ∧ Stops rest e := by
  -- one more item in front of a text that has been read
  have hcons (item : Item) {rest : List Char}
      (ih : (∃ items : List Item, rest = items.flatMap Item.raw) ∨
        ∃ (items : List Item) (left : List Char) (e : EscapeError),
          rest = items.flatMap Item.raw ++ left ∧ Stops left e) :
      (∃ items : List Item, item.raw ++ rest = items.flatMap Item.raw) ∨
        ∃ (items : List Item) (left : List Char) (e : EscapeError),
          item.raw ++ rest = items.flatMap Item.raw ++ left ∧ Stops left e := by
    rcases ih with ⟨items, rfl⟩ | ⟨items, left, e, rfl, hstops⟩
    · exact .inl ⟨item :: items, rfl⟩
    · exact .inr ⟨item :: items, left, e, by rw [List.flatMap_cons, List.append_assoc], hstops⟩
  induction cs using resolveEscapes.induct with
  | case1 => exact .inl ⟨[], rfl⟩
  | case2 => exact .inr ⟨[], _, _, rfl, .loneBackslash⟩
  | case3 c rest value hvalue ih => exact hcons (.escape c value hvalue) ih
  | case4 c rest hnone => exact .inr ⟨[], _, _, rfl, .unknown hnone rest⟩
  | case5 c rest hlone hescape ih =>
    have hc : c ≠ '\\' := by
      rintro rfl
      cases rest with
      | nil => exact hlone rfl rfl
      | cons d rest => exact hescape d rest rfl rfl
    exact hcons (.plain c hc) ih

/-- **The texts that are read are the sequences of items.** -/
theorem resolveEscapes_eq_ok_iff : resolveEscapes strict cs = .ok out ↔
    ∃ items : List Item, cs = items.flatMap Item.raw ∧ out = items.flatMap (Item.text strict) := by
  have hread (items : List Item) : resolveEscapes strict (items.flatMap Item.raw) =
      .ok (items.flatMap (Item.text strict)) := by
    rw [← List.append_nil (items.flatMap Item.raw), resolveEscapes_items, resolveEscapes]
    exact congrArg Except.ok (List.append_nil _)
  constructor
  · intro h
    rcases exists_items cs with ⟨items, rfl⟩ | ⟨items, rest, e, rfl, hstops⟩
    · rw [hread] at h
      exact ⟨items, rfl, (Except.ok.inj h).symm⟩
    · rw [resolveEscapes_items, resolveEscapes_of_stops hstops] at h
      cases h
  · rintro ⟨items, rfl, rfl⟩
    exact hread items

/-- **A text is refused for the first mark that marks nothing**, however line breaks are read. -/
theorem resolveEscapes_eq_error_iff : resolveEscapes strict cs = .error e ↔
    ∃ (items : List Item) (rest : List Char),
      cs = items.flatMap Item.raw ++ rest ∧ Stops rest e := by
  constructor
  · intro h
    rcases exists_items cs with ⟨items, hitems⟩ | ⟨items, rest, e', rfl, hstops⟩
    · rw [resolveEscapes_eq_ok_iff.2 ⟨items, hitems, rfl⟩] at h
      cases h
    · rw [resolveEscapes_items, resolveEscapes_of_stops hstops] at h
      cases h
      exact ⟨items, rest, rfl, hstops⟩
  · rintro ⟨items, rest, rfl, hstops⟩
    rw [resolveEscapes_items, resolveEscapes_of_stops hstops]
    rfl

/-! ### Both ways to read -/

/-- No escape stands for a carriage return, and one for a line feed. -/
theorem of_escaped?_eq_some {letter value : Char} (h : escaped? letter = some value) :
    value ≠ '\r' ∧ (value = '\n' ↔ letter = 'n') := by
  unfold escaped? at h
  split at h
  · rename_i hn
    cases h
    exact ⟨by decide, iff_of_true rfl hn⟩
  split at h
  · rename_i hn ht
    cases h
    exact ⟨by decide, iff_of_false (by decide) hn⟩
  split at h
  · rename_i hself
    cases h
    rcases hself with rfl | rfl | rfl | rfl | rfl <;> decide
  · cases h

namespace Item

theorem not_mem_folded (item : Item) : '\r' ∉ item.folded := by
  cases item with
  | escape letter value hvalue =>
    rw [folded, List.mem_singleton]
    exact (of_escaped?_eq_some hvalue).1.symm
  | plain c hc =>
    rw [folded]
    split
    · exact List.not_mem_nil
    split
    · decide
    · rename_i hreturn hfeed
      rw [List.mem_singleton]
      exact Ne.symm hreturn

theorem count_folded (item : Item) : item.folded.count '\n' = if item.isBreak then 1 else 0 := by
  cases item with
  | escape letter value hvalue =>
    simp only [folded, isBreak, List.count_singleton, beq_iff_eq, (of_escaped?_eq_some hvalue).2]
  | plain c hc =>
    rw [folded, isBreak, if_neg Bool.false_ne_true]
    split
    · rfl
    split
    · rfl
    · rename_i hreturn hfeed
      exact List.count_eq_zero_of_not_mem fun hmem => hfeed (List.mem_singleton.1 hmem).symm

/-- A text without plain line breaks has the line breaks of its escapes. -/
theorem count_flatMap_folded (items : List Item) :
    (items.flatMap folded).count '\n' = items.countP isBreak := by
  induction items with
  | nil => rfl
  | cons item items ih =>
    rw [List.flatMap_cons, List.count_append, ih, count_folded, List.countP_cons, Nat.add_comm]

theorem flatMap_text_lenient (items : List Item) : items.flatMap (text false) = items.map char :=
  List.map_eq_flatMap.symm

end Item

theorem normalize_eq_ok_iff {raw s : String} :
    normalize strict raw = .ok s ↔ resolveEscapes strict raw.toList = .ok s.toList := by
  rw [normalize]
  cases resolveEscapes strict raw.toList with
  | error e => exact iff_of_false nofun nofun
  | ok cs =>
    show Except.ok (String.ofList cs) = _ ↔ _
    rw [Except.ok.injEq, Except.ok.injEq, ← String.toList_inj, String.toList_ofList]

theorem normalize_eq_error_iff {raw : String} :
    normalize strict raw = .error e ↔ resolveEscapes strict raw.toList = .error e := by
  rw [normalize]
  cases resolveEscapes strict raw.toList with
  | error e' =>
    show Except.error e' = _ ↔ _
    rw [Except.error.injEq, Except.error.injEq]
  | ok cs => exact iff_of_false nofun nofun

/-- **Strict line breaks only matter to plain line breaks.** Both ways to read a text refuse the same
texts for the same faults. A text that is read is one sequence of items; without strict line breaks
each stands for its character, with them the plain line breaks among these are folded. Then only
escapes break lines. -/
theorem normalize_strict (raw : String) :
    (∀ e, normalize true raw = .error e ↔ normalize false raw = .error e) ∧
    ∀ lenient, normalize false raw = .ok lenient → ∃ strict, normalize true raw = .ok strict ∧
      ∃ items : List Item, raw.toList = items.flatMap Item.raw ∧
        (∀ items' : List Item, raw.toList = items'.flatMap Item.raw → items' = items) ∧
        lenient.toList = items.map Item.char ∧ strict.toList = items.flatMap Item.folded ∧
        strict.toList.count '\n' = items.countP Item.isBreak ∧ '\r' ∉ strict.toList := by
  refine ⟨fun e => ?_, fun lenient h => ?_⟩
  · rw [normalize_eq_error_iff, normalize_eq_error_iff, resolveEscapes_eq_error_iff,
      resolveEscapes_eq_error_iff]
  · obtain ⟨items, hraw, hlenient⟩ := resolveEscapes_eq_ok_iff.1 (normalize_eq_ok_iff.1 h)
    refine ⟨String.ofList (items.flatMap Item.folded), ?_, items, hraw, fun items' hraw' => ?_, ?_⟩
    · rw [normalize_eq_ok_iff, String.toList_ofList]
      exact resolveEscapes_eq_ok_iff.2 ⟨items, hraw, rfl⟩
    · exact Item.raw_injective (hraw'.symm.trans hraw)
    · rw [String.toList_ofList]
      refine ⟨hlenient.trans (Item.flatMap_text_lenient items), rfl,
        Item.count_flatMap_folded items, fun hmem => ?_⟩
      obtain ⟨item, -, hitem⟩ := List.mem_flatMap.1 hmem
      exact item.not_mem_folded hitem

/-- A doubled backslash in front of a letter makes no escape of the letter, and of the three line
breaks of a card only the escaped one is left. -/
theorem normalize_strict_postcard :
    normalize false "Dear all,\r\nsun\\nand\\\\n\nsea" = .ok "Dear all,\r\nsun\nand\\n\nsea" ∧
      ∃ strict, normalize true "Dear all,\r\nsun\\nand\\\\n\nsea" = .ok strict ∧
        strict = "Dear all, sun\nand\\n sea" ∧ '\r' ∉ strict.toList := by
  have hlenient : normalize false "Dear all,\r\nsun\\nand\\\\n\nsea" =
      .ok "Dear all,\r\nsun\nand\\n\nsea" := by rfl
  obtain ⟨strict, hstrict, -, -, -, -, -, -, hreturn⟩ := (normalize_strict _).2 _ hlenient
  have htext : normalize true "Dear all,\r\nsun\\nand\\\\n\nsea" =
      .ok "Dear all, sun\nand\\n sea" := by rfl
  exact ⟨hlenient, strict, hstrict, Except.ok.inj (hstrict.symm.trans htext), hreturn⟩

end ResourceCompiler.Source
