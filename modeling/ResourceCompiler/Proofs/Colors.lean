import Mathlib.Algebra.Group.Nat.Defs
import Mathlib.Data.List.DropRight
import ResourceCompiler.Resource.Color

/-!
# Written colors

A text is a color if, without the blanks at its two ends, it is a hash sign with six or eight
hexadecimal digits behind it. The digits are the channels, two for each, and all of them together
are the value of the color as one number.

* `Text.hexNumber`: the number that digits stand for together.
* `Text.trimmed_append`, `Text.exists_trimmed`: a text without the blanks at its ends.
* `Color.Describes`: the channels that digits describe.
* `Color.ofDigits?_eq_some_iff`, `Color.Describes.value_eq`: the digits of a color.
* `Color.reads_exactly`: the texts that are colors, and the written forms of a color.
-/

namespace ResourceCompiler

namespace Text

/-! ### Hexadecimal digits -/

/-- The digits of ASCII, and its first six letters in either case. -/
def HexDigit (c : Char) : Prop :=
  ('0' ≤ c ∧ c ≤ '9') ∨ ('A' ≤ c ∧ c ≤ 'F') ∨ ('a' ≤ c ∧ c ≤ 'f')

instance (c : Char) : Decidable (HexDigit c) := inferInstanceAs (Decidable (_ ∨ _ ∨ _))

/-- The number that digits stand for together, the first one the most significant. -/
def hexNumber (digits : List Char) : Nat :=
  digits.foldl (fun n d => 16 * n + (hexValue? d).getD 0) 0

theorem hexValue?_isSome_iff {c : Char} : (hexValue? c).isSome = true ↔ HexDigit c := by
  have hle (a b : Char) : a ≤ b ↔ a.toNat ≤ b.toNat := Iff.rfl
  simp only [HexDigit, hle, show '0'.toNat = 48 from rfl, show '9'.toNat = 57 from rfl,
    show 'A'.toNat = 65 from rfl, show 'F'.toNat = 70 from rfl, show 'a'.toNat = 97 from rfl,
    show 'f'.toNat = 102 from rfl]
  rw [hexValue?]
  split
  · rename_i h
    exact iff_of_true rfl (.inl h)
  split
  · rename_i h
    exact iff_of_true rfl (.inr (.inl h))
  split
  · rename_i h
    exact iff_of_true rfl (.inr (.inr h))
  · rename_i h1 h2 h3
    exact iff_of_false nofun (not_or.2 ⟨h1, not_or.2 ⟨h2, h3⟩⟩)

/-- Digits stand for less than the power of 16 by their number. -/
theorem hexNumber_lt (digits : List Char) : hexNumber digits < 16 ^ digits.length := by
  induction digits using List.reverseRecOn with
  | nil => decide
  | append_singleton front d ih =>
    have hd : (hexValue? d).getD 0 < 16 := by
      cases h : hexValue? d with
      | none => decide
      | some n => exact hexValue?_lt h
    rw [hexNumber] at ih ⊢
    rw [List.foldl_append, List.foldl_cons, List.foldl_nil, List.length_append,
      List.length_singleton, Nat.pow_succ]
    omega

theorem hexNumber_lt_256 {digits : List Char} (h : digits.length ≤ 2) : hexNumber digits < 256 :=
  Nat.lt_of_lt_of_le (hexNumber_lt digits) (Nat.pow_le_pow_right (by decide) h)

/-- Digits behind others. -/
theorem hexNumber_append (front : List Char) (a b : Char) :
    hexNumber (front ++ [a, b]) = 256 * hexNumber front + hexNumber [a, b] := by
  simp only [hexNumber, List.foldl_append, List.foldl_cons, List.foldl_nil]
  omega

/-- A byte is read from two digits. -/
theorem byteOfHex?_eq_some_iff {a b : Char} {x : UInt8} :
    byteOfHex? a b = some x ↔ HexDigit a ∧ HexDigit b ∧ x.toNat = hexNumber [a, b] := by
  have hlt : hexNumber [a, b] < 256 := hexNumber_lt_256 (Nat.le_refl 2)
  rw [← hexValue?_isSome_iff, ← hexValue?_isSome_iff, byteOfHex?]
  simp only [hexNumber, List.foldl_cons, List.foldl_nil] at hlt ⊢
  cases ha : hexValue? a with
  | none => simp
  | some h =>
    cases hb : hexValue? b with
    | none => simp
    | some l =>
      rw [ha, hb] at hlt
      simp only [Option.getD_some] at hlt
      simp only [Option.some.injEq, Option.isSome_some, true_and, Option.getD_some]
      rw [← UInt8.toNat_inj, UInt8.toNat_ofNat_of_lt' (by simpa using hlt), eq_comm]
      simp

/-! ### Blanks at the ends -/

/-- Blanks at the ends are taken away. -/
theorem trimmed_append {before core after : List Char} (hbefore : ∀ c ∈ before, isBlank c = true)
    (hafter : ∀ c ∈ after, isBlank c = true) (hne : core ≠ [])
    (hfirst : ∀ c ∈ core.head?, isBlank c = false)
    (hlast : ∀ c ∈ core.getLast?, isBlank c = false) :
    trimmed (before ++ core ++ after) = core := by
  have hfront : (core ++ after).dropWhile isBlank = core ++ after := by
    refine dropWhile_isBlank_eq_self ?_
    rwa [List.head?_append_of_ne_nil _ hne]
  have hback : core.reverse.dropWhile isBlank = core.reverse := by
    refine dropWhile_isBlank_eq_self ?_
    rwa [List.head?_reverse]
  rw [trimmed, List.append_assoc, List.dropWhile_append_of_pos hbefore, hfront,
    List.reverse_append, List.dropWhile_append_of_pos fun c hc => hafter c (List.mem_reverse.1 hc),
    hback, List.reverse_reverse]

/-- A text is what is left of it, with blanks at the ends. -/
theorem exists_trimmed (cs : List Char) : ∃ before after, cs = before ++ trimmed cs ++ after ∧
    (∀ c ∈ before, isBlank c = true) ∧ ∀ c ∈ after, isBlank c = true := by
  refine ⟨cs.takeWhile isBlank, ((cs.dropWhile isBlank).reverse.takeWhile isBlank).reverse, ?_,
    fun c hc => List.mem_takeWhile_imp hc,
    fun c hc => List.mem_takeWhile_imp (List.mem_reverse.1 hc)⟩
  rw [trimmed, List.append_assoc, ← List.reverse_append, List.takeWhile_append_dropWhile,
    List.reverse_reverse, List.takeWhile_append_dropWhile]

theorem HexDigit.isBlank {c : Char} (h : HexDigit c) : isBlank c = false := by
  have hle (a b : Char) : a ≤ b ↔ a.toNat ≤ b.toNat := Iff.rfl
  simp only [HexDigit, hle, show '0'.toNat = 48 from rfl, show '9'.toNat = 57 from rfl,
    show 'A'.toNat = 65 from rfl, show 'F'.toNat = 70 from rfl, show 'a'.toNat = 97 from rfl,
    show 'f'.toNat = 102 from rfl] at h
  simp only [Text.isBlank, Bool.or_eq_false_iff, Bool.and_eq_false_iff, decide_eq_false_iff_not,
    beq_eq_false_iff_ne]
  omega

end Text

namespace Color

open Text

variable {digits : List Char} {c : Color}

/-! ### Digits -/

/-- The channels that digits describe: the first pair is red, the second one green, the third one
blue, and what is left is alpha. A color without alpha is opaque. -/
structure Describes (digits : List Char) (c : Color) : Prop where
  red : c.red.toNat = hexNumber (digits.take 2)
  green : c.green.toNat = hexNumber ((digits.drop 2).take 2)
  blue : c.blue.toNat = hexNumber ((digits.drop 4).take 2)
  alpha : c.alpha.toNat = if digits.length = 6 then 255 else hexNumber (digits.drop 6)

/-- Whether a text is that of the digits of a color. -/
def AreDigits (digits : List Char) : Prop :=
  (digits.length = 6 ∨ digits.length = 8) ∧ ∀ d ∈ digits, HexDigit d

instance (digits : List Char) : Decidable (AreDigits digits) :=
  have := List.decidableBAll HexDigit digits
  inferInstanceAs (Decidable (_ ∧ _))

theorem exists_of_length_six : ∀ {cs : List Char}, cs.length = 6 →
    ∃ r1 r2 g1 g2 b1 b2, cs = [r1, r2, g1, g2, b1, b2]
  | [r1, r2, g1, g2, b1, b2], _ => ⟨r1, r2, g1, g2, b1, b2, rfl⟩

theorem exists_of_length_eight : ∀ {cs : List Char}, cs.length = 8 →
    ∃ r1 r2 g1 g2 b1 b2 a1 a2, cs = [r1, r2, g1, g2, b1, b2, a1, a2]
  | [r1, r2, g1, g2, b1, b2, a1, a2], _ => ⟨r1, r2, g1, g2, b1, b2, a1, a2, rfl⟩

theorem ofDigits?_six {r1 r2 g1 g2 b1 b2 : Char} :
    ofDigits? [r1, r2, g1, g2, b1, b2] = some c ↔
      byteOfHex? r1 r2 = some c.red ∧ byteOfHex? g1 g2 = some c.green ∧
        byteOfHex? b1 b2 = some c.blue ∧ c.alpha = 255 := by
  obtain ⟨red, green, blue, alpha⟩ := c
  rw [ofDigits?]
  cases byteOfHex? r1 r2 <;> cases byteOfHex? g1 g2 <;> cases byteOfHex? b1 b2 <;> simp [eq_comm]

theorem ofDigits?_eight {r1 r2 g1 g2 b1 b2 a1 a2 : Char} :
    ofDigits? [r1, r2, g1, g2, b1, b2, a1, a2] = some c ↔
      byteOfHex? r1 r2 = some c.red ∧ byteOfHex? g1 g2 = some c.green ∧
        byteOfHex? b1 b2 = some c.blue ∧ byteOfHex? a1 a2 = some c.alpha := by
  obtain ⟨red, green, blue, alpha⟩ := c
  rw [ofDigits?]
  cases byteOfHex? r1 r2 <;> cases byteOfHex? g1 g2 <;> cases byteOfHex? b1 b2 <;>
    cases byteOfHex? a1 a2 <;> simp

/-- **Digits are read as the color that they describe**, if there are six or eight of them. -/
theorem ofDigits?_eq_some_iff :
    ofDigits? digits = some c ↔ AreDigits digits ∧ Describes digits c := by
  by_cases hsix : digits.length = 6
  · obtain ⟨r1, r2, g1, g2, b1, b2, rfl⟩ := exists_of_length_six hsix
    rw [ofDigits?_six, byteOfHex?_eq_some_iff, byteOfHex?_eq_some_iff, byteOfHex?_eq_some_iff,
      ← UInt8.toNat_inj]
    constructor
    · rintro ⟨⟨hr1, hr2, hr⟩, ⟨hg1, hg2, hg⟩, ⟨hb1, hb2, hb⟩, ha⟩
      exact ⟨⟨.inl rfl, by simp [hr1, hr2, hg1, hg2, hb1, hb2]⟩, ⟨hr, hg, hb, ha⟩⟩
    · rintro ⟨⟨-, hall⟩, hr, hg, hb, ha⟩
      simp only [List.forall_mem_cons] at hall
      obtain ⟨hr1, hr2, hg1, hg2, hb1, hb2, -⟩ := hall
      exact ⟨⟨hr1, hr2, hr⟩, ⟨hg1, hg2, hg⟩, ⟨hb1, hb2, hb⟩, ha⟩
  by_cases height : digits.length = 8
  · obtain ⟨r1, r2, g1, g2, b1, b2, a1, a2, rfl⟩ := exists_of_length_eight height
    rw [ofDigits?_eight, byteOfHex?_eq_some_iff, byteOfHex?_eq_some_iff, byteOfHex?_eq_some_iff,
      byteOfHex?_eq_some_iff]
    constructor
    · rintro ⟨⟨hr1, hr2, hr⟩, ⟨hg1, hg2, hg⟩, ⟨hb1, hb2, hb⟩, ha1, ha2, ha⟩
      exact ⟨⟨.inr rfl, by simp [hr1, hr2, hg1, hg2, hb1, hb2, ha1, ha2]⟩, ⟨hr, hg, hb, ha⟩⟩
    · rintro ⟨⟨-, hall⟩, hr, hg, hb, ha⟩
      simp only [List.forall_mem_cons] at hall
      obtain ⟨hr1, hr2, hg1, hg2, hb1, hb2, ha1, ha2, -⟩ := hall
      exact ⟨⟨hr1, hr2, hr⟩, ⟨hg1, hg2, hg⟩, ⟨hb1, hb2, hb⟩, ha1, ha2, ha⟩
  · refine iff_of_false (fun h => ?_) fun h => h.1.1.elim hsix height
    unfold ofDigits? at h
    split at h
    · exact hsix rfl
    · exact height rfl
    · cases h

/-- Six or eight digits describe a color. -/
theorem exists_describes (h : AreDigits digits) : ∃ c, Describes digits c := by
  have hpair (cs : List Char) : hexNumber (cs.take 2) < 256 :=
    hexNumber_lt_256 (List.length_take_le 2 cs)
  have halpha : (if digits.length = 6 then 255 else hexNumber (digits.drop 6)) < 256 := by
    split
    · decide
    · rename_i hsix
      refine hexNumber_lt_256 ?_
      rw [List.length_drop, h.1.resolve_left hsix]
  exact ⟨⟨.ofNat _, .ofNat _, .ofNat _, .ofNat _⟩, UInt8.toNat_ofNat_of_lt' (hpair _),
    UInt8.toNat_ofNat_of_lt' (hpair _), UInt8.toNat_ofNat_of_lt' (hpair _),
    UInt8.toNat_ofNat_of_lt' halpha⟩

/-- All digits together are the value of the color, in which an opaque color has two more. -/
theorem Describes.value_eq (h : AreDigits digits) (hc : Describes digits c) :
    c.value = if digits.length = 6 then 256 * hexNumber digits + 255 else hexNumber digits := by
  obtain ⟨hr, hg, hb, ha⟩ := hc
  rcases h.1 with hsix | height
  · obtain ⟨r1, r2, g1, g2, b1, b2, rfl⟩ := exists_of_length_six hsix
    have hdigits := hexNumber_append [r1, r2, g1, g2] b1 b2
    have hfront := hexNumber_append [r1, r2] g1 g2
    simp only [List.cons_append, List.nil_append] at hdigits hfront
    rw [if_pos hsix, hdigits, hfront, value]
    simp only [List.take, List.drop, if_pos hsix] at hr hg hb ha
    omega
  · obtain ⟨r1, r2, g1, g2, b1, b2, a1, a2, rfl⟩ := exists_of_length_eight height
    have hdigits := hexNumber_append [r1, r2, g1, g2, b1, b2] a1 a2
    have hmiddle := hexNumber_append [r1, r2, g1, g2] b1 b2
    have hfront := hexNumber_append [r1, r2] g1 g2
    simp only [List.cons_append, List.nil_append] at hdigits hmiddle hfront
    have hsix : ¬ [r1, r2, g1, g2, b1, b2, a1, a2].length = 6 := by simp
    rw [if_neg hsix, hdigits, hmiddle, hfront, value]
    simp only [List.take, List.drop, if_neg hsix] at hr hg hb ha
    omega

/-! ### Texts -/

/-- Whether a text has a hash sign and the digits of a color between blanks. -/
def Shows (s : String) (digits : List Char) : Prop :=
  AreDigits digits ∧ ∃ before after, s.toList = before ++ '#' :: digits ++ after ∧
    (∀ b ∈ before, isBlank b = true) ∧ ∀ b ∈ after, isBlank b = true

theorem trimmed_of_digits {before after : List Char} (h : AreDigits digits)
    (hbefore : ∀ b ∈ before, isBlank b = true) (hafter : ∀ b ∈ after, isBlank b = true) :
    trimmed (before ++ '#' :: digits ++ after) = '#' :: digits := by
  refine trimmed_append hbefore hafter (List.cons_ne_nil _ _) ?_ ?_
  · rw [List.head?_cons]
    intro d hd
    obtain rfl := Option.some.inj hd
    decide
  · intro d hd
    have hmem : d ∈ '#' :: digits := List.mem_of_mem_getLast? hd
    rcases List.mem_cons.1 hmem with rfl | hmem
    · decide
    · exact (h.2 d hmem).isBlank

/-- **A text is read as a color by the digits that it shows.** -/
theorem ofText?_eq_ok_iff_describes {s : String} :
    ofText? s = .ok c ↔ ∃ digits, Shows s digits ∧ Describes digits c := by
  rw [ofText?_eq_ok_iff]
  constructor
  · intro h
    obtain ⟨before, after, htext, hbefore, hafter⟩ := exists_trimmed s.toList
    unfold ofTrimmed? at h
    split at h
    · rename_i digits hdigits
      rw [hdigits] at htext
      obtain ⟨hare, hdescribes⟩ := ofDigits?_eq_some_iff.1 h
      exact ⟨digits, ⟨hare, before, after, htext, hbefore, hafter⟩, hdescribes⟩
    · cases h
  · rintro ⟨digits, ⟨hare, before, after, htext, hbefore, hafter⟩, hdescribes⟩
    rw [htext, trimmed_of_digits hare hbefore hafter]
    exact ofDigits?_eq_some_iff.2 ⟨hare, hdescribes⟩

/-- The other written form has the last pair of digits in front. -/
theorem toList_argb (c : Color) :
    c.argb.toList = '#' :: (c.text.toList.drop 7 ++ (c.text.toList.drop 1).take 6) := by
  rw [argb, text, String.toList_ofList, String.toList_ofList]
  rfl

/-- **Colors are read exactly and written without loss.** The texts that are colors are those that
show six or eight digits; the color has these digits as its channels, and as its value. Every other
text is refused. The written form of a color reads as that color, and the other form has the pair of
digits for alpha in front. -/
theorem reads_exactly (s : String) :
    ((∃ c, ofText? s = .ok c) ↔ ∃ digits, Shows s digits) ∧
    (∀ digits, Shows s digits → ∃ c, ofText? s = .ok c ∧ Describes digits c ∧
      c.value = if digits.length = 6 then 256 * hexNumber digits + 255 else hexNumber digits) ∧
    ((¬ ∃ digits, Shows s digits) → ofText? s = .error (.color s)) ∧
    ∀ c : Color, ofText? c.text = .ok c ∧
      c.argb.toList = '#' :: (c.text.toList.drop 7 ++ (c.text.toList.drop 1).take 6) := by
  have hshows (digits : List Char) (h : Shows s digits) : ∃ c, ofText? s = .ok c ∧
      Describes digits c ∧
      c.value = if digits.length = 6 then 256 * hexNumber digits + 255 else hexNumber digits := by
    obtain ⟨c, hc⟩ := exists_describes h.1
    exact ⟨c, ofText?_eq_ok_iff_describes.2 ⟨digits, h, hc⟩, hc, hc.value_eq h.1⟩
  refine ⟨⟨?_, ?_⟩, hshows, fun hnone => ?_, fun c => ⟨ofText?_text c, toList_argb c⟩⟩
  · rintro ⟨c, hc⟩
    obtain ⟨digits, hdigits, -⟩ := ofText?_eq_ok_iff_describes.1 hc
    exact ⟨digits, hdigits⟩
  · rintro ⟨digits, hdigits⟩
    obtain ⟨c, hc, -⟩ := hshows digits hdigits
    exact ⟨c, hc⟩
  · cases hread : ofTrimmed? (trimmed s.toList) with
    | none => rw [ofText?, hread]
    | some c =>
      obtain ⟨digits, hdigits, -⟩ := ofText?_eq_ok_iff_describes.1 (ofText?_eq_ok_iff.2 hread)
      exact absurd ⟨digits, hdigits⟩ hnone

/-- A color between blanks, one of them none of ASCII, with letters in both cases. -/
theorem reads_exactly_dusk :
    Shows "\u2003#4b0082CC\n" "4b0082CC".toList ∧
      ∃ c, ofText? "\u2003#4b0082CC\n" = .ok c ∧ Describes "4b0082CC".toList c ∧
        c.value = 0x4B0082CC := by
  have hshows : Shows "\u2003#4b0082CC\n" "4b0082CC".toList :=
    ⟨by decide, ['\u2003'], ['\n'], rfl, List.forall_mem_singleton.2 rfl,
      List.forall_mem_singleton.2 rfl⟩
  obtain ⟨c, hc, hdescribes, hvalue⟩ := (reads_exactly _).2.1 _ hshows
  exact ⟨hshows, c, hc, hdescribes, hvalue.trans (by decide)⟩

end Color

end ResourceCompiler
