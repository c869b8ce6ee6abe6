import Mathlib.Data.List.Basic
import ResourceCompiler.Native.PropertyBundle

/-!
# Properties read back

A reader of properties, as the JVM has one, gets the keys and values that lines were written for,
whatever characters they have.

A text is read in stages, each a function of its own: lines, logical lines, key and value, escapes,
and characters for the units of 16 bits that texts of the JVM consist of.

* `lines`, `logicalLines`: where a pair starts and ends.
* `cutKey`, `valueOf`: the written key and the written value of a logical line.
* `units?`, `chars?`: what is written for a text.
* `read?`, `load?`: the pairs of a text, and of a file.
* `escapeChar_cases`: the three forms that a character has when it is written.
* `text?_escapeProperty`: a written text reads as itself.
* `read?_flatMap_line`, `load?_toUTF8`: written pairs read back.
-/

namespace ResourceCompiler.Native.Properties

open Jvm

/-! ### Lines -/

/-- What can stand around the parts of a line. -/
def isBlank (c : Char) : Bool := c == ' ' || c == '\t' || c == '\x0c'

/-- What ends a line. -/
def isBreak (c : Char) : Bool := c == '\n' || c == '\r'

/-- The lines of a text. A carriage return and a line feed behind it are one break. -/
def lines : List Char → List (List Char)
  | [] => [[]]
  | '\r' :: '\n' :: rest => [] :: lines rest
  | c :: rest =>
    if isBreak c then [] :: lines rest
    else match lines rest with
      | [] => [[c]]
      | line :: more => (c :: line) :: more

/-- Whether a line goes on in the next one: it ends with an odd number of backslashes. -/
def goesOn (line : List Char) : Bool := (line.reverse.takeWhile (· == '\\')).length % 2 == 1

/-- Whether a line is a comment. -/
def isComment : List Char → Bool
  | [] => false
  | c :: _ => c == '#' || c == '!'

/-- The logical lines, where `held` is what an unfinished one has so far. Empty lines and comments
count only inside of a logical line. -/
def logicalLines (held : List Char) : List (List Char) → List (List Char)
  | [] => if held.isEmpty then [] else [held]
  | line :: rest =>
    let content := line.dropWhile isBlank
    if held.isEmpty && (content.isEmpty || isComment content) then logicalLines [] rest
    else if goesOn content then logicalLines (held ++ content.dropLast) rest
    else (held ++ content) :: logicalLines [] rest

/-! ### Keys and values -/

/-- What can stand between a key and a value. -/
def isSeparator (c : Char) : Bool := c == '=' || c == ':'

/-- A logical line cut at the first separator or blank that is not escaped. -/
def cutKey : List Char → List Char × List Char
  | [] => ([], [])
  | '\\' :: c :: rest => ('\\' :: c :: (cutKey rest).1, (cutKey rest).2)
  | c :: rest =>
    if isSeparator c || isBlank c then ([], c :: rest) else (c :: (cutKey rest).1, (cutKey rest).2)

/-- The value in what follows a key: behind one separator, and the blanks around it. -/
def valueOf (rest : List Char) : List Char :=
  match rest.dropWhile isBlank with
  | [] => []
  | c :: value => if isSeparator c then value.dropWhile isBlank else c :: value

/-! ### Escapes -/

/-- What an escaped character stands for. -/
def escaped (c : Char) : Char :=
  if c = 't' then '\t'
  else if c = 'n' then '\n'
  else if c = 'r' then '\r'
  else if c = 'f' then '\x0c'
  else c

/-- The units of 16 bits that are written for. -/
def units? : List Char → Option (List Nat)
  | [] => some []
  | '\\' :: 'u' :: a :: b :: c :: d :: rest =>
    (Text.unitOfHex? a b c d).bind fun n => (units? rest).map (n :: ·)
  | '\\' :: c :: rest => if c = 'u' then none else (units? rest).map (units (escaped c) ++ ·)
  | c :: rest => (units? rest).map (units c ++ ·)

/-- The characters that units of 16 bits encode, unless a surrogate stands alone. -/
def chars? : List Nat → Option (List Char)
  | [] => some []
  | n :: rest =>
    if 0xD800 ≤ n ∧ n < 0xDC00 then
      match rest with
      | [] => none
      | m :: rest =>
        if 0xDC00 ≤ m ∧ m < 0xE000 then
          (chars? rest).map (Char.ofNat (0x10000 + 1024 * (n - 0xD800) + (m - 0xDC00)) :: ·)
        else none
    else if 0xDC00 ≤ n ∧ n < 0xE000 then none
    else (chars? rest).map (Char.ofNat n :: ·)

/-- The text that is written as the given characters. -/
def text? (cs : List Char) : Option String := ((units? cs).bind chars?).map String.ofList

/-- The key and the value of a logical line. -/
def pair? (line : List Char) : Option (String × String) :=
  (text? (cutKey line).1).bind fun key =>
    (text? (valueOf (cutKey line).2)).map fun value => (key, value)

/-- **The reader**: the pairs of a text, in order. -/
def read? (cs : List Char) : Option (List (String × String)) :=
  (logicalLines [] (lines cs)).mapM pair?

/-- The pairs of a file, in which each byte is a character of ISO 8859-1. -/
def load? (content : ByteArray) : Option (List (String × String)) :=
  read? (content.data.toList.map fun b => Char.ofNat b.toNat)

/-! ### How a character is written -/

/-- Characters that mean nothing but themselves. -/
def isPlain (c : Char) : Bool :=
  32 < c.toNat && c.toNat < 127 && c != '\\' && !isSeparator c && !isComment [c]

theorem isPlain_hexDigitUpper (m : Nat) : isPlain (Text.hexDigitUpper (m % 16)) = true := by
  have h : ∀ n < 16, isPlain (Text.hexDigitUpper n) = true := by decide
  exact h (m % 16) (Nat.mod_lt m (by decide))

theorem isPlain_of_mem_hexUnitUpper {n : Nat} {c : Char} (h : c ∈ Text.hexUnitUpper n) :
    isPlain c = true := by
  simp only [Text.hexUnitUpper, List.mem_cons, List.not_mem_nil, or_false] at h
  rcases h with rfl | rfl | rfl | rfl <;> exact isPlain_hexDigitUpper _

/-- A character is written behind a backslash, as it is, or by the numbers of its units. -/
theorem escapeChar_cases (isKey first : Bool) (c : Char) :
    (∃ d, escapeChar isKey first c = ['\\', d] ∧ escaped d = c ∧ d ≠ 'u' ∧
        32 ≤ d.toNat ∧ d.toNat < 127) ∨
      (escapeChar isKey first c = [c] ∧ 32 ≤ c.toNat ∧ c.toNat < 127 ∧ c ≠ '\\' ∧
        (isKey = true → isSeparator c = false ∧ isBlank c = false) ∧
        (first = true → isComment [c] = false ∧ isBlank c = false)) ∨
      escapeChar isKey first c = unitEscape c := by
  unfold escapeChar
  split
  · rename_i h; subst h; exact .inl ⟨'\\', rfl, by decide⟩
  split
  · rename_i h; subst h; exact .inl ⟨'n', rfl, by decide⟩
  split
  · rename_i h; subst h; exact .inl ⟨'r', rfl, by decide⟩
  split
  · rename_i h; subst h; exact .inl ⟨'t', rfl, by decide⟩
  split
  · rename_i h; subst h; exact .inl ⟨'f', rfl, by decide⟩
  split
  · rename_i h
    rcases h.2 with rfl | rfl <;> exact .inl ⟨_, rfl, by decide⟩
  split
  · rename_i h
    rcases h.2 with rfl | rfl <;> exact .inl ⟨_, rfl, by decide⟩
  split
  · rename_i h
    rw [h.1]
    exact .inl ⟨' ', rfl, by decide⟩
  split
  · rename_i hslash _ _ htab hfeed hsep hsign hspace hrange
    refine .inr (.inl ⟨rfl, hrange.1, hrange.2, hslash, fun hkey => ?_, fun hfirst => ?_⟩)
    · simp only [isSeparator, isBlank, Bool.or_eq_false_iff, beq_eq_false_iff_ne]
      exact ⟨⟨fun h => hsep ⟨hkey, .inl h⟩, fun h => hsep ⟨hkey, .inr h⟩⟩,
        ⟨fun h => hspace ⟨h, .inr hkey⟩, htab⟩, hfeed⟩
    · simp only [isComment, isBlank, Bool.or_eq_false_iff, beq_eq_false_iff_ne]
      exact ⟨⟨fun h => hsign ⟨hfirst, .inl h⟩, fun h => hsign ⟨hfirst, .inr h⟩⟩,
        ⟨fun h => hspace ⟨h, .inl hfirst⟩, htab⟩, hfeed⟩
  · exact .inr (.inr rfl)

variable {isKey first : Bool} {c : Char}

theorem units_cases (c : Char) :
    c.toNat < 0x10000 ∧ units c = [c.toNat] ∨
      0x10000 ≤ c.toNat ∧ units c = [0xD800 + (c.toNat - 0x10000) / 1024,
        0xDC00 + (c.toNat - 0x10000) % 1024] := by
  rw [units]
  split
  · exact .inl ⟨‹_›, rfl⟩
  · exact .inr ⟨by omega, rfl⟩

theorem toNat_lt (c : Char) : c.toNat < 0x110000 := by
  rcases c.valid with h | ⟨-, h⟩
  · exact Nat.lt_trans h (by decide)
  · exact h

theorem lt_of_mem_units {n : Nat} (h : n ∈ units c) : n < 65536 := by
  have hc := toNat_lt c
  rcases units_cases c with ⟨hlt, heq⟩ | ⟨hle, heq⟩
  · rw [heq, List.mem_singleton] at h
    omega
  · rw [heq] at h
    simp only [List.mem_cons, List.not_mem_nil, or_false] at h
    omega

/-- Only printable characters of ASCII are written. -/
theorem printable_of_mem_escapeChar {x : Char} (h : x ∈ escapeChar isKey first c) :
    32 ≤ x.toNat ∧ x.toNat < 127 := by
  rcases escapeChar_cases isKey first c with ⟨d, heq, -, -, hd⟩ | ⟨heq, hle, hlt, -⟩ | heq
  · rw [heq] at h
    rcases List.mem_cons.1 h with rfl | h
    · decide
    · exact List.mem_singleton.1 h ▸ hd
  · rw [heq] at h
    exact List.mem_singleton.1 h ▸ ⟨hle, hlt⟩
  · rw [heq, unitEscape] at h
    obtain ⟨n, -, hx⟩ := List.mem_flatMap.1 h
    rcases List.mem_cons.1 hx with rfl | hx
    · decide
    rcases List.mem_cons.1 hx with rfl | hx
    · decide
    have hplain := isPlain_of_mem_hexUnitUpper hx
    simp only [isPlain, Bool.and_eq_true, decide_eq_true_eq] at hplain
    omega

/-- The numbers of units end with a digit. -/
theorem exists_concat_unitEscape (c : Char) :
    ∃ before m, unitEscape c = before ++ [Text.hexDigitUpper (m % 16)] := by
  obtain ⟨before, n, hunits⟩ : ∃ before n, units c = before ++ [n] := by
    rcases units_cases c with ⟨-, heq⟩ | ⟨-, heq⟩
    · exact ⟨[], _, heq⟩
    · exact ⟨[_], _, heq⟩
  have hconcat : '\\' :: 'u' :: Text.hexUnitUpper n =
      '\\' :: 'u' :: (Text.hexUnitUpper n).dropLast ++ [Text.hexDigitUpper (n % 16)] := rfl
  rw [unitEscape, hunits, List.flatMap_append, List.flatMap_singleton, hconcat, ← List.append_assoc]
  exact ⟨_, n, rfl⟩

/-! ### Ends of lines -/

theorem goesOn_concat_of_ne (line : List Char) (h : c ≠ '\\') : goesOn (line ++ [c]) = false := by
  rw [goesOn, List.reverse_append, List.reverse_singleton, List.singleton_append,
    List.takeWhile_cons_of_neg (by simpa using h)]
  rfl

theorem goesOn_append_backslashes (line : List Char) :
    goesOn (line ++ ['\\', '\\']) = goesOn line := by
  have hreverse : (line ++ ['\\', '\\']).reverse = '\\' :: '\\' :: line.reverse := by simp
  rw [goesOn, goesOn, hreverse, List.takeWhile_cons_of_pos (by decide),
    List.takeWhile_cons_of_pos (by decide), List.length_cons, List.length_cons, Nat.add_assoc,
    Nat.add_mod_right]

/-- A written character never joins a line with the next one. -/
theorem goesOn_append_escapeChar {line : List Char} (h : goesOn line = false) :
    goesOn (line ++ escapeChar isKey first c) = false := by
  rcases escapeChar_cases isKey first c with ⟨d, heq, -⟩ | ⟨heq, -, -, hc, -⟩ | heq
  · rw [heq]
    by_cases hd : d = '\\'
    · rw [hd, goesOn_append_backslashes, h]
    · have hconcat : line ++ ['\\', d] = (line ++ ['\\']) ++ [d] := by simp
      rw [hconcat, goesOn_concat_of_ne _ hd]
  · rw [heq, goesOn_concat_of_ne _ hc]
  · obtain ⟨before, m, hconcat⟩ := exists_concat_unitEscape c
    have hplain := isPlain_hexDigitUpper m
    simp only [isPlain, Bool.and_eq_true, bne_iff_ne] at hplain
    rw [heq, hconcat, ← List.append_assoc, goesOn_concat_of_ne _ hplain.1.1.2]

theorem goesOn_append_flatMap {line : List Char} (h : goesOn line = false) (cs : List Char) :
    goesOn (line ++ cs.flatMap (escapeChar isKey false)) = false := by
  induction cs generalizing line with
  | nil => rwa [List.flatMap_nil, List.append_nil]
  | cons c cs ih =>
    rw [List.flatMap_cons, ← List.append_assoc]
    exact ih (goesOn_append_escapeChar h)

theorem goesOn_append_escapeProperty {line : List Char} (h : goesOn line = false)
    (cs : List Char) : goesOn (line ++ escapeProperty isKey cs) = false := by
  cases cs with
  | nil => rwa [escapeProperty, List.append_nil]
  | cons c cs =>
    rw [escapeProperty, ← List.append_assoc]
    exact goesOn_append_flatMap (goesOn_append_escapeChar h) cs

/-! ### The key -/

theorem cutKey_plain {part : List Char}
    (h : ∀ x ∈ part, x ≠ '\\' ∧ isSeparator x = false ∧ isBlank x = false) (rest : List Char) :
    cutKey (part ++ rest) = (part ++ (cutKey rest).1, (cutKey rest).2) := by
  induction part with
  | nil => rfl
  | cons x part ih =>
    obtain ⟨⟨hx, hseparator, hblank⟩, hpart⟩ := List.forall_mem_cons.1 h
    rw [List.cons_append, cutKey, hseparator, hblank, ih hpart]
    · rfl
    · exact fun _ _ heq => absurd heq hx

theorem not_blank_of_isPlain (h : isPlain c = true) :
    c ≠ '\\' ∧ isSeparator c = false ∧ isBlank c = false := by
  simp only [isPlain, Bool.and_eq_true, decide_eq_true_eq, bne_iff_ne, Bool.not_eq_true'] at h
  refine ⟨h.1.1.2, h.1.2, ?_⟩
  simp only [isBlank, Bool.or_eq_false_iff, beq_eq_false_iff_ne]
  refine ⟨⟨?_, ?_⟩, ?_⟩ <;> rintro rfl <;> exact absurd h.1.1.1.1 (by decide)

/-- A written character of a key does not end the key. -/
theorem cutKey_escapeChar (first : Bool) (c : Char) (rest : List Char) :
    cutKey (escapeChar true first c ++ rest) =
      (escapeChar true first c ++ (cutKey rest).1, (cutKey rest).2) := by
  rcases escapeChar_cases true first c with ⟨d, heq, -⟩ | ⟨heq, -, -, hc, hkey, -⟩ | heq
  · rw [heq]
    rfl
  · rw [heq]
    exact cutKey_plain (List.forall_mem_singleton.2 ⟨hc, hkey rfl⟩) rest
  · have hunit (n : Nat) (rest : List Char) :
        cutKey ('\\' :: 'u' :: Text.hexUnitUpper n ++ rest) =
          ('\\' :: 'u' :: Text.hexUnitUpper n ++ (cutKey rest).1, (cutKey rest).2) := by
      have hplain := cutKey_plain
        (fun x hx => not_blank_of_isPlain (isPlain_of_mem_hexUnitUpper (n := n) hx)) rest
      rw [List.cons_append, List.cons_append, cutKey, hplain]
      rfl
    have hunits (ns : List Nat) :
        cutKey (ns.flatMap (fun n => '\\' :: 'u' :: Text.hexUnitUpper n) ++ rest) =
          (ns.flatMap (fun n => '\\' :: 'u' :: Text.hexUnitUpper n) ++ (cutKey rest).1,
            (cutKey rest).2) := by
      induction ns with
      | nil => rfl
      | cons n ns ih => rw [List.flatMap_cons, List.append_assoc, hunit, ih, List.append_assoc]
    rw [heq]
    exact hunits (units c)

theorem cutKey_flatMap (cs rest : List Char) :
    cutKey (cs.flatMap (escapeChar true false) ++ rest) =
      (cs.flatMap (escapeChar true false) ++ (cutKey rest).1, (cutKey rest).2) := by
  induction cs with
  | nil => rfl
  | cons c cs ih =>
    rw [List.flatMap_cons, List.append_assoc, cutKey_escapeChar, ih, List.append_assoc]

/-- A written key ends where its separator stands. -/
theorem cutKey_escapeProperty (key rest : List Char) :
    cutKey (escapeProperty true key ++ '=' :: rest) = (escapeProperty true key, '=' :: rest) := by
  have hseparator : cutKey ('=' :: rest) = ([], '=' :: rest) := by
    rw [cutKey]
    · rfl
    · exact fun _ _ h => absurd h (by decide)
  cases key with
  | nil => exact hseparator
  | cons c cs =>
    rw [escapeProperty, List.append_assoc, cutKey_escapeChar, cutKey_flatMap, hseparator,
      List.append_nil]

/-! ### The value -/

/-- A written text starts with a character that is no blank and no sign of a comment. -/
theorem head_escapeProperty {cs : List Char} {x : Char}
    (h : (escapeProperty isKey cs).head? = some x) :
    isBlank x = false ∧ isComment [x] = false := by
  cases cs with
  | nil => cases h
  | cons c cs =>
    rw [escapeProperty] at h
    rcases escapeChar_cases isKey true c with ⟨d, heq, -⟩ | ⟨heq, -, -, -, -, hfirst⟩ | heq
    · rw [heq] at h
      obtain rfl := Option.some.inj h
      decide
    · rw [heq] at h
      obtain rfl := Option.some.inj h
      exact (hfirst rfl).symm
    · rcases units_cases c with ⟨-, hunits⟩ | ⟨-, hunits⟩
      all_goals
        rw [heq, unitEscape, hunits] at h
        obtain rfl := Option.some.inj h
        decide

theorem dropWhile_escapeProperty (cs : List Char) :
    (escapeProperty isKey cs).dropWhile isBlank = escapeProperty isKey cs := by
  cases hcs : escapeProperty isKey cs with
  | nil => rfl
  | cons x rest =>
    have hhead : (escapeProperty isKey cs).head? = some x := by rw [hcs]; rfl
    have hblank := (head_escapeProperty hhead).1
    exact List.dropWhile_cons_of_neg (by simp [hblank])

theorem valueOf_escapeProperty (cs : List Char) :
    valueOf ('=' :: escapeProperty false cs) = escapeProperty false cs := by
  exact dropWhile_escapeProperty cs

/-! ### Characters -/

theorem units?_plain (h : c ≠ '\\') (rest : List Char) :
    units? (c :: rest) = (units? rest).map (units c ++ ·) := by
  rw [units?]
  · exact fun _ _ _ _ _ hc _ => h hc
  · exact fun _ _ hc _ => h hc

theorem units?_escaped (h : c ≠ 'u') (rest : List Char) :
    units? ('\\' :: c :: rest) = (units? rest).map (units (escaped c) ++ ·) := by
  rw [units?, if_neg h]
  exact fun _ _ _ _ _ hc _ => h hc

theorem units?_unit {n : Nat} (h : n < 65536) (rest : List Char) :
    units? ('\\' :: 'u' :: Text.hexUnitUpper n ++ rest) = (units? rest).map (n :: ·) := by
  rw [Text.hexUnitUpper]
  simp only [List.cons_append, List.nil_append]
  rw [units?, Text.unitOfHex?_of_digits Text.hexValue?_hexDigitUpper h]
  rfl

theorem units?_flatMap_unit {ns : List Nat} (h : ∀ n ∈ ns, n < 65536) (rest : List Char) :
    units? (ns.flatMap (fun n => '\\' :: 'u' :: Text.hexUnitUpper n) ++ rest) =
      (units? rest).map (ns ++ ·) := by
  induction ns with
  | nil => exact (Option.map_id' (x := units? rest)).symm
  | cons n ns ih =>
    obtain ⟨hn, hns⟩ := List.forall_mem_cons.1 h
    rw [List.flatMap_cons, List.append_assoc, units?_unit hn, ih hns, Option.map_map]
    rfl

/-- A written character reads as its units. -/
theorem units?_escapeChar (isKey first : Bool) (c : Char) (rest : List Char) :
    units? (escapeChar isKey first c ++ rest) = (units? rest).map (units c ++ ·) := by
  rcases escapeChar_cases isKey first c with ⟨d, heq, hd, hu, -⟩ | ⟨heq, -, -, hc, -⟩ | heq
  · rw [heq, List.cons_append, List.singleton_append, units?_escaped hu, hd]
  · rw [heq, List.singleton_append, units?_plain hc]
  · rw [heq]
    exact units?_flatMap_unit (fun n => lt_of_mem_units) rest

theorem units?_escapeProperty (isKey : Bool) (cs : List Char) :
    units? (escapeProperty isKey cs) = some (cs.flatMap units) := by
  have hrest (cs : List Char) :
      units? (cs.flatMap (escapeChar isKey false)) = some (cs.flatMap units) := by
    induction cs with
    | nil => rfl
    | cons c cs ih =>
      rw [List.flatMap_cons, units?_escapeChar, ih, List.flatMap_cons]
      rfl
  cases cs with
  | nil => rfl
  | cons c cs =>
    rw [escapeProperty, units?_escapeChar, hrest, List.flatMap_cons]
    rfl

/-- The units of a character encode it. -/
theorem chars?_units (c : Char) (rest : List Nat) :
    chars? (units c ++ rest) = (chars? rest).map (c :: ·) := by
  have hc := toNat_lt c
  rcases units_cases c with ⟨hlt, heq⟩ | ⟨hle, heq⟩
  · have hvalid : c.toNat < 0xD800 ∨ 0xDFFF < c.toNat := c.valid.imp id And.left
    rw [heq, List.singleton_append, chars?.eq_def]
    simp only
    rw [if_neg (by omega), if_neg (by omega), Char.ofNat_toNat]
  · rw [heq, List.cons_append, List.singleton_append, chars?.eq_def]
    simp only
    rw [if_pos (by omega), if_pos (by omega)]
    have hnumber : 0x10000 + 1024 * (0xD800 + (c.toNat - 0x10000) / 1024 - 0xD800)
        + (0xDC00 + (c.toNat - 0x10000) % 1024 - 0xDC00) = c.toNat := by omega
    rw [hnumber, Char.ofNat_toNat]

theorem chars?_flatMap_units (cs : List Char) : chars? (cs.flatMap units) = some cs := by
  induction cs with
  | nil => rfl
  | cons c cs ih => rw [List.flatMap_cons, chars?_units, ih, Option.map_some]

/-- **A written text reads as itself**, as a key and as a value. -/
theorem text?_escapeProperty (isKey : Bool) (s : String) :
    text? (escapeProperty isKey s.toList) = some s := by
  rw [text?, units?_escapeProperty, Option.bind_some, chars?_flatMap_units, Option.map_some,
    String.ofList_toList]

/-- A key and what stands behind it are written one after the other if only the key has characters
to escape. -/
theorem escapeProperty_append {key part : List Char} (hne : key ≠ [])
    (h : ∀ x ∈ part, escapeChar isKey false x = [x]) :
    escapeProperty isKey (key ++ part) = escapeProperty isKey key ++ part := by
  have hpart : part.flatMap (escapeChar isKey false) = part := by
    rw [List.flatMap_congr h, List.flatMap_singleton']
  cases key with
  | nil => exact absurd rfl hne
  | cons c rest =>
    rw [List.cons_append, escapeProperty, escapeProperty, List.flatMap_append, hpart,
      List.append_assoc]

/-! ### Pairs -/

/-- The line of a key and a value. -/
def line (e : String × String) : List Char :=
  escapeProperty true e.1.toList ++ '=' :: escapeProperty false e.2.toList

theorem pair?_line (e : String × String) : pair? (line e) = some e := by
  rw [pair?, line, cutKey_escapeProperty, text?_escapeProperty, valueOf_escapeProperty,
    text?_escapeProperty]
  rfl

theorem printable_of_mem_escapeProperty {cs : List Char} {x : Char}
    (h : x ∈ escapeProperty isKey cs) : 32 ≤ x.toNat ∧ x.toNat < 127 := by
  cases cs with
  | nil => cases h
  | cons c cs =>
    rw [escapeProperty, List.mem_append, List.mem_flatMap] at h
    rcases h with h | ⟨d, -, h⟩ <;> exact printable_of_mem_escapeChar h

theorem printable_of_mem_line {e : String × String} {x : Char} (h : x ∈ line e) :
    32 ≤ x.toNat ∧ x.toNat < 127 := by
  rw [line, List.mem_append, List.mem_cons] at h
  rcases h with h | rfl | h
  · exact printable_of_mem_escapeProperty h
  · decide
  · exact printable_of_mem_escapeProperty h

theorem goesOn_line (e : String × String) : goesOn (line e) = false := by
  have hconcat : line e =
      (escapeProperty true e.1.toList ++ ['=']) ++ escapeProperty false e.2.toList := by
    rw [line, List.append_assoc, List.singleton_append]
  rw [hconcat]
  exact goesOn_append_escapeProperty (goesOn_concat_of_ne _ (by decide)) _

theorem head_line (e : String × String) :
    ∃ x rest, line e = x :: rest ∧ isBlank x = false ∧ isComment (line e) = false := by
  cases hkey : escapeProperty true e.1.toList with
  | nil =>
    refine ⟨'=', escapeProperty false e.2.toList, ?_, by decide, ?_⟩
    all_goals
      rw [line, hkey]
      rfl
  | cons x rest =>
    have hhead : (escapeProperty true e.1.toList).head? = some x := by rw [hkey]; rfl
    obtain ⟨hblank, hcomment⟩ := head_escapeProperty hhead
    refine ⟨x, rest ++ '=' :: escapeProperty false e.2.toList, ?_, hblank, ?_⟩
    · rw [line, hkey]
      rfl
    · rw [line, hkey]
      exact hcomment

/-- A line without breaks is the first line. -/
theorem lines_append_break {part : List Char} (h : ∀ x ∈ part, isBreak x = false)
    (rest : List Char) : lines (part ++ '\n' :: rest) = part :: lines rest := by
  induction part with
  | nil =>
    rw [List.nil_append, lines]
    · rfl
    · exact fun _ hc _ => absurd hc (by decide)
  | cons c part ih =>
    obtain ⟨hc, hpart⟩ := List.forall_mem_cons.1 h
    have hreturn : c ≠ '\r' := by
      rintro rfl
      cases hc
    rw [List.cons_append, lines, hc, ih hpart]
    · rfl
    · exact fun _ hc _ => hreturn hc

theorem lines_flatMap_line (es : List (String × String)) :
    lines (es.flatMap fun e => line e ++ ['\n']) = es.map line ++ [[]] := by
  induction es with
  | nil => rfl
  | cons e es ih =>
    have hbreak : ∀ x ∈ line e, isBreak x = false := by
      intro x hx
      have hprintable := printable_of_mem_line hx
      simp only [isBreak, Bool.or_eq_false_iff, beq_eq_false_iff_ne]
      constructor <;> rintro rfl <;> exact absurd hprintable.1 (by decide)
    rw [List.flatMap_cons, List.append_assoc, List.singleton_append, lines_append_break hbreak, ih]
    rfl

theorem logicalLines_lines (es : List (String × String)) :
    logicalLines [] (es.map line ++ [[]]) = es.map line := by
  induction es with
  | nil => rfl
  | cons e es ih =>
    obtain ⟨x, rest, hline, hblank, hcomment⟩ := head_line e
    have hcontent : (line e).dropWhile isBlank = line e := by
      rw [hline]
      exact List.dropWhile_cons_of_neg (by simp [hblank])
    have hempty : (line e).isEmpty = false := by
      rw [hline]
      rfl
    rw [List.map_cons, List.cons_append, logicalLines]
    simp only [hcontent, hempty, hcomment, goesOn_line, ih]
    rfl

/-- **Written pairs read back**, in order and nothing else. -/
theorem read?_flatMap_line (es : List (String × String)) :
    read? (es.flatMap fun e => line e ++ ['\n']) = some es := by
  rw [read?, lines_flatMap_line, logicalLines_lines]
  induction es with
  | nil => rfl
  | cons e es ih =>
    rw [List.map_cons, List.mapM_cons, pair?_line, ih]
    rfl

/-! ### Files -/

/-- The bytes of a text of ASCII are its characters. -/
theorem characters_toUTF8 {s : String} (h : ∀ c ∈ s.toList, c.toNat < 128) :
    (s.toUTF8.data.toList.map fun b => Char.ofNat b.toNat) = s.toList := by
  have hbytes : s.toUTF8.data.toList = s.toList.flatMap String.utf8EncodeChar := by
    rw [String.toUTF8_eq_toByteArray, ← String.utf8Encode_toList, List.utf8Encode,
      List.data_toByteArray]
  have hchar : ∀ c ∈ s.toList,
      ((String.utf8EncodeChar c).map fun b => Char.ofNat b.toNat) = [c] := by
    intro c hc
    have hlt := h c hc
    have hsize : c.utf8Size = 1 := Char.utf8Size_eq_one_iff.2 (UInt32.le_iff_toNat_le.2 (by
      show c.toNat ≤ 127
      omega))
    have hnat : c.val.toUInt8.toNat = c.toNat := by
      rw [UInt32.toNat_toUInt8]
      exact Nat.mod_eq_of_lt (Nat.lt_trans hlt (by decide))
    rw [String.utf8EncodeChar_eq_singleton hsize, List.map_singleton, hnat, Char.ofNat_toNat]
  rw [hbytes, List.map_flatMap, List.flatMap_congr hchar, List.flatMap_singleton']

/-- **The file of written pairs loads as those pairs**, in order and nothing else. -/
theorem load?_toUTF8 {s : String} {es : List (String × String)}
    (h : s.toList = es.flatMap fun e => line e ++ ['\n']) : load? s.toUTF8 = some es := by
  have hascii : ∀ c ∈ s.toList, c.toNat < 128 := by
    intro c hc
    rw [h] at hc
    obtain ⟨e, -, hc⟩ := List.mem_flatMap.1 hc
    rcases List.mem_append.1 hc with hc | hc
    · exact Nat.lt_succ_of_lt (printable_of_mem_line hc).2
    · rw [List.mem_singleton.1 hc]
      decide
  rw [load?, characters_toUTF8 hascii, h, read?_flatMap_line]

end ResourceCompiler.Native.Properties
