import ResourceCompiler.Proofs.Json.Grammar
import ResourceCompiler.Proofs.Json.Nesting

/-!
# Written JSON read back

Both written forms differ only in the blanks between their parts. A value written with any blanks
there is read back to itself, and so is a whole document.

* `Layout`: the blanks between the parts of a value, with `Layout.tight` and `Layout.lines`.
* `laid`: a value written in a layout.
* `spells_laid`: a value is spelled by its written form.
* `read_document`, `read_compact`: the two written forms are read back.
-/

namespace ResourceCompiler.Json

/-! ### Layouts -/

/-- The blanks at the start of a line of a level, and behind a colon. -/
structure Layout where
  gap : Nat → List Char
  aside : List Char
  gap_isSpace : ∀ level, ∀ c ∈ gap level, isSpace c = true
  aside_isSpace : ∀ c ∈ aside, isSpace c = true

/-- No blanks at all. -/
def Layout.tight : Layout := ⟨fun _ => [], [], by simp, by simp⟩

/-- A line for each item and member. -/
def Layout.lines : Layout where
  gap := newline
  aside := [' ']
  gap_isSpace := by
    intro level c hc
    rcases List.mem_cons.1 hc with rfl | hc
    · rfl
    · rw [List.eq_of_mem_replicate hc]
      rfl
  aside_isSpace := by simp [isSpace]

variable (L : Layout)

mutual

/-- A value whose first line stands at a level. -/
def laid (level : Nat) : Json → List Char
  | .null => ['n', 'u', 'l', 'l']
  | .bool true => ['t', 'r', 'u', 'e']
  | .bool false => ['f', 'a', 'l', 's', 'e']
  | .number written => written
  | .string text => writtenString text
  | .array [] => ['[', ']']
  | .array (item :: rest) =>
    '[' :: (L.gap (level + 1) ++ (laid (level + 1) item ++ (laidItems (level + 1) rest
      ++ (L.gap level ++ [']']))))
  | .object [] => ['\x7b', '\x7d']
  | .object ((name, value) :: rest) =>
    '\x7b' :: (L.gap (level + 1) ++ (writtenString name ++ ':' :: (L.aside
      ++ (laid (level + 1) value ++ (laidMembers (level + 1) rest ++ (L.gap level ++ ['\x7d']))))))

/-- The items behind the first one. -/
def laidItems (level : Nat) : List Json → List Char
  | [] => []
  | item :: rest => ',' :: (L.gap level ++ (laid level item ++ laidItems level rest))

/-- The members behind the first one. -/
def laidMembers (level : Nat) : List (Option String × Json) → List Char
  | [] => []
  | (name, value) :: rest =>
    ',' :: (L.gap level ++ (writtenString name ++ ':' :: (L.aside
      ++ (laid level value ++ laidMembers level rest))))

end

mutual

theorem compact_eq_laid (level : Nat) : ∀ j, compact j = laid .tight level j
  | .null => rfl
  | .bool true => rfl
  | .bool false => rfl
  | .number _ => rfl
  | .string _ => rfl
  | .array [] => rfl
  | .array (item :: rest) => by
    rw [compact, laid, compact_eq_laid (level + 1) item, compactItems_eq_laidItems (level + 1) rest]
    simp [Layout.tight]
  | .object [] => rfl
  | .object ((name, value) :: rest) => by
    rw [compact, laid, compact_eq_laid (level + 1) value,
      compactMembers_eq_laidMembers (level + 1) rest]
    simp [Layout.tight]

theorem compactItems_eq_laidItems (level : Nat) : ∀ items,
    compactItems items = laidItems .tight level items
  | [] => rfl
  | item :: rest => by
    rw [compactItems, laidItems, compact_eq_laid level item, compactItems_eq_laidItems level rest]
    rfl

theorem compactMembers_eq_laidMembers (level : Nat) : ∀ members,
    compactMembers members = laidMembers .tight level members
  | [] => rfl
  | (name, value) :: rest => by
    rw [compactMembers, laidMembers, compact_eq_laid level value,
      compactMembers_eq_laidMembers level rest]
    simp [Layout.tight]

end

mutual

theorem indented_eq_laid (level : Nat) : ∀ j, indented level j = laid .lines level j
  | .null => rfl
  | .bool true => rfl
  | .bool false => rfl
  | .number _ => rfl
  | .string _ => rfl
  | .array [] => rfl
  | .array (item :: rest) => by
    rw [indented, laid, indented_eq_laid (level + 1) item,
      indentedItems_eq_laidItems (level + 1) rest]
    simp [Layout.lines]
  | .object [] => rfl
  | .object ((name, value) :: rest) => by
    rw [indented, laid, indented_eq_laid (level + 1) value,
      indentedMembers_eq_laidMembers (level + 1) rest]
    simp [Layout.lines]

theorem indentedItems_eq_laidItems (level : Nat) : ∀ items,
    indentedItems level items = laidItems .lines level items
  | [] => rfl
  | item :: rest => by
    rw [indentedItems, laidItems, indented_eq_laid level item,
      indentedItems_eq_laidItems level rest]
    simp [Layout.lines]

theorem indentedMembers_eq_laidMembers (level : Nat) : ∀ members,
    indentedMembers level members = laidMembers .lines level members
  | [] => rfl
  | (name, value) :: rest => by
    rw [indentedMembers, laidMembers, indented_eq_laid level value,
      indentedMembers_eq_laidMembers level rest]
    simp [Layout.lines]

end

/-! ### Written values spell themselves -/

/-- A number as a natural number is written. -/
def IsNatural (written : List Char) : Prop := ∃ n, written = Nat.toDigits 10 n

variable {L}

/-- Items are spelled once each of them is. -/
theorem spellsItems_laid {level : Nat} {item : Json} {items : List Json}
    (hall : ∀ i ∈ item :: items, Spells (laid L level i) i) (outer : Nat) :
    SpellsItems (L.gap level ++ (laid L level item ++ (laidItems L level items ++ L.gap outer)))
      (item :: items) := by
  induction items generalizing item with
  | nil =>
    exact .last (.around (L.gap_isSpace level) (hall item List.mem_cons_self)
      (L.gap_isSpace outer))
  | cons next items ih =>
    have hitem : SpellsElement (L.gap level ++ (laid L level item ++ [])) item :=
      .around (L.gap_isSpace level) (hall item List.mem_cons_self) blank_nil
    have h := SpellsItems.next hitem (ih fun i hi => hall i (List.mem_cons_of_mem item hi))
    simpa only [laidItems, List.append_nil, List.append_assoc, List.cons_append] using h

/-- A member is spelled once its value is. -/
theorem spellsMember_laid {level : Nat} {name : String} {value : Json}
    (h : Spells (laid L level value) value) {back : List Char} (hback : Blank back) :
    SpellsMember (L.gap level ++ (writtenString (some name) ++ ':' :: (L.aside
      ++ (laid L level value ++ back)))) (some name, value) := by
  have hmember := SpellsMember.named (L.gap_isSpace level) (spellsText_escaped name.toList)
    blank_nil (.around L.aside_isSpace h hback)
  rw [String.ofList_toList] at hmember
  simpa only [writtenString, quoted, List.nil_append, List.append_assoc, List.cons_append]
    using hmember

/-- Members are spelled once each value among them is. -/
theorem spellsMembers_laid {level : Nat} {name : String} {value : Json}
    {members : List (Option String × Json)} (hname : ∀ m ∈ members, m.1.isSome = true)
    (hall : ∀ m ∈ (some name, value) :: members, Spells (laid L level m.2) m.2) (outer : Nat) :
    SpellsMembers (L.gap level ++ (writtenString (some name) ++ ':' :: (L.aside
      ++ (laid L level value ++ (laidMembers L level members ++ L.gap outer)))))
      ((some name, value) :: members) := by
  induction members generalizing name value with
  | nil => exact .last (spellsMember_laid (hall _ List.mem_cons_self) (L.gap_isSpace outer))
  | cons next members ih =>
    obtain ⟨nextName, nextValue⟩ := next
    obtain ⟨nextName, rfl⟩ := Option.isSome_iff_exists.1 (hname _ List.mem_cons_self)
    have hmember := @spellsMember_laid L level name value (hall _ List.mem_cons_self) _ blank_nil
    have h := SpellsMembers.next hmember (ih (fun m hm => hname m (List.mem_cons_of_mem _ hm))
      fun m hm => hall m (List.mem_cons_of_mem _ hm))
    simpa only [laidMembers, List.append_nil, List.append_assoc, List.cons_append] using h

mutual

/-- **A value is spelled by its written form.** -/
theorem spells_laid (L : Layout) (level : Nat) : ∀ j, j.Proper IsNatural →
    Spells (laid L level j) j
  | .null, _ => .nullWord
  | .bool true, _ => .trueWord
  | .bool false, _ => .falseWord
  | .number written, ⟨n, hn⟩ => by
    subst hn
    exact .number (isNumber_toDigits n)
  | .string (some s), _ => by
    have h := Spells.string (spellsText_escaped s.toList)
    rwa [String.ofList_toList] at h
  | .array [], _ => .noItems blank_nil
  | .array (item :: items), h => by
    have hitems := spellsItems_laid (spells_laid_of_mem_items L (level + 1) (item :: items) h) level
    simpa only [laid, List.append_assoc] using Spells.array hitems
  | .object [], _ => .noMembers blank_nil
  | .object ((name, value) :: members), h => by
    have hall := spells_laid_of_mem_members L (level + 1) ((name, value) :: members) h
    have hproper := properMembers_iff.1 h
    obtain ⟨name, rfl⟩ := Option.isSome_iff_exists.1 (hproper _ List.mem_cons_self).1
    have hmembers := spellsMembers_laid (fun m hm => (hproper m (List.mem_cons_of_mem _ hm)).1)
      hall level
    simpa only [laid, List.append_assoc, List.cons_append] using Spells.object hmembers

theorem spells_laid_of_mem_items (L : Layout) (level : Nat) : ∀ items,
    ProperItems IsNatural items → ∀ i ∈ items, Spells (laid L level i) i
  | [], _ => fun _ hi => absurd hi List.not_mem_nil
  | item :: items, h => by
    rw [List.forall_mem_cons]
    exact ⟨spells_laid L level item h.1, spells_laid_of_mem_items L level items h.2⟩

theorem spells_laid_of_mem_members (L : Layout) (level : Nat) : ∀ members,
    ProperMembers IsNatural members → ∀ m ∈ members, Spells (laid L level m.2) m.2
  | [], _ => fun _ hm => absurd hm List.not_mem_nil
  | (_, value) :: members, h => by
    rw [List.forall_mem_cons]
    exact ⟨spells_laid L level value h.2.1, spells_laid_of_mem_members L level members h.2.2⟩

end

/-! ### Whole texts -/

theorem read_laid (L : Layout) {j : Json} (h : j.Proper IsNatural) {blanks : List Char}
    (hblanks : Blank blanks) : read (String.ofList (laid L 0 j ++ blanks)) = some j := by
  refine read_of_spells ?_
  rw [String.toList_ofList]
  exact .around blank_nil (spells_laid L 0 j h) hblanks

/-- **A document is read back to the value it was written for.** -/
theorem read_document {j : Json} (h : j.Proper IsNatural) : read (document j) = some j := by
  rw [document, indented_eq_laid]
  exact read_laid .lines h (by simp [Blank, isSpace])

/-- **A compact text is read back to the value it was written for.** -/
theorem read_compact {j : Json} (h : j.Proper IsNatural) :
    read (String.ofList (compact j)) = some j := by
  rw [compact_eq_laid 0, ← List.append_nil (laid .tight 0 j)]
  exact read_laid .tight h (fun _ hc => absurd hc List.not_mem_nil)

end ResourceCompiler.Json
