import ResourceCompiler.Json.Printer
import ResourceCompiler.Json.Reader

/-!
# Tokens of JSON

What spells a text between quotes, and what is a number. Both are said without the reader: a
character of a text may be spelled in any of its ways, and a number in any form that the grammar
has. Whatever spells a text is read as it, and so is a number with something behind it that cannot
be a part of it.

* `SpellsChar`, `SpellsText`: characters and texts inside of quotes.
* `SpellsText.readString`: a text behind its opening quote.
* `IsNumber`: numbers.
* `Stops`: what can stand behind a number.
* `IsNumber.readNumber`: a number in front of that.
* `spellsText_escaped`, `isNumber_toDigits`: texts and natural numbers as they are written.
-/

namespace ResourceCompiler.Json

/-! ### Strings -/

/-- The letters that stand behind a backslash, with what they stand for. -/
def shortEscapes : List (Char × Char) :=
  [('"', '"'), ('\\', '\\'), ('/', '/'), ('b', '\x08'), ('f', '\x0c'), ('n', '\n'), ('r', '\r'),
    ('t', '\t')]

/-- Whether a piece of a string spells a character: the character itself, a letter behind a
backslash, or the one or two units of 16 bits that encode it. -/
inductive SpellsChar : List Char → Char → Prop
  | itself {c : Char} (hquote : c ≠ '"') (hslash : c ≠ '\\') (hcontrol : 32 ≤ c.toNat) :
      SpellsChar [c] c
  | short {letter c : Char} (h : (letter, c) ∈ shortEscapes) : SpellsChar ['\\', letter] c
  | unit {x₁ x₂ x₃ x₄ c : Char} (h : Text.unitOfHex? x₁ x₂ x₃ x₄ = some c.toNat) :
      SpellsChar ['\\', 'u', x₁, x₂, x₃, x₄] c
  | pair {x₁ x₂ x₃ x₄ y₁ y₂ y₃ y₄ c : Char} {high low : Nat}
      (hx : Text.unitOfHex? x₁ x₂ x₃ x₄ = some high) (hhigh : isHighSurrogate high = true)
      (hy : Text.unitOfHex? y₁ y₂ y₃ y₄ = some low) (hlow : isLowSurrogate low = true)
      (hc : c.toNat = 0x10000 + (high - 0xD800) * 1024 + (low - 0xDC00)) :
      SpellsChar ['\\', 'u', x₁, x₂, x₃, x₄, '\\', 'u', y₁, y₂, y₃, y₄] c

/-- Whether what stands between two quotes spells a text. -/
inductive SpellsText : List Char → List Char → Prop
  | nil : SpellsText [] []
  | cons {piece cs s : List Char} {c : Char} (hpiece : SpellsChar piece c) (h : SpellsText cs s) :
      SpellsText (piece ++ cs) (c :: s)

/-- A character is no half of a surrogate pair. -/
theorem isSurrogate_toNat (c : Char) :
    isHighSurrogate c.toNat = false ∧ isLowSurrogate c.toNat = false := by
  have hvalid : c.toNat < 0xD800 ∨ 0xDFFF < c.toNat ∧ c.toNat < 0x110000 := c.valid
  simp only [isHighSurrogate, isLowSurrogate, Bool.and_eq_false_iff, decide_eq_false_iff_not]
  omega

theorem pushUnit_toNat (held : Held) (c : Char) : held.pushUnit c.toNat = held.push c := by
  rw [Held.pushUnit, (isSurrogate_toNat c).1, (isSurrogate_toNat c).2, Char.ofNat_toNat]
  rfl

/-- A piece that spells a character is read as it. -/
theorem SpellsChar.readStringFrom {piece : List Char} {c : Char} (h : SpellsChar piece c)
    (acc rest : List Char) :
    readStringFrom ⟨some acc, none⟩ (piece ++ rest) =
      readStringFrom ⟨some (c :: acc), none⟩ rest := by
  cases h with
  | itself hquote hslash hcontrol =>
    rw [List.singleton_append, Json.readStringFrom, if_neg]
    · rfl
    · rintro (h | h)
      · omega
      · exact hslash h
    all_goals simp_all
  | short h =>
    simp only [shortEscapes, List.mem_cons, List.not_mem_nil, or_false, Prod.mk.injEq] at h
    rcases h with ⟨rfl, rfl⟩ | ⟨rfl, rfl⟩ | ⟨rfl, rfl⟩ | ⟨rfl, rfl⟩ | ⟨rfl, rfl⟩ | ⟨rfl, rfl⟩ |
      ⟨rfl, rfl⟩ | ⟨rfl, rfl⟩ <;> rfl
  | unit h =>
    simp only [List.cons_append, List.nil_append, Json.readStringFrom, h, pushUnit_toNat]
    rfl
  | @pair _ _ _ _ _ _ _ _ _ high low hx hhigh hy hlow hc =>
    have hnot : isHighSurrogate low = false := by
      simp only [isHighSurrogate, isLowSurrogate, Bool.and_eq_true, decide_eq_true_eq,
        Bool.and_eq_false_iff, decide_eq_false_iff_not] at hlow ⊢
      omega
    have hpair : (Held.pushUnit ⟨some acc, none⟩ high).pushUnit low = ⟨some (c :: acc), none⟩ := by
      simp only [Held.pushUnit, Held.settled, hhigh, hnot, hlow, if_true, Option.map_some, ← hc,
        Char.ofNat_toNat]
      rfl
    simp only [List.cons_append, List.nil_append, Json.readStringFrom, hx, hy, hpair]

/-- What spells a text is read up to the closing quote. -/
theorem SpellsText.readStringFrom {cs s : List Char} (h : SpellsText cs s) (acc rest : List Char) :
    readStringFrom ⟨some acc, none⟩ (cs ++ '"' :: rest) =
      some (⟨some (s.reverse ++ acc), none⟩, rest) := by
  induction h generalizing acc with
  | nil => rfl
  | @cons _ _ _ c hpiece _ ih =>
    rw [List.append_assoc, hpiece.readStringFrom, ih (c :: acc), List.reverse_cons,
      List.append_assoc]
    rfl

theorem SpellsText.readString {cs s : List Char} (h : SpellsText cs s) (rest : List Char) :
    readString (cs ++ '"' :: rest) = some (some (String.ofList s), rest) := by
  rw [Json.readString, Held.start, h.readStringFrom]
  simp [Held.text, Held.settled]

/-- A text without quotes, backslashes and control characters spells itself. -/
theorem spellsText_itself {cs : List Char}
    (h : ∀ c ∈ cs, c ≠ '"' ∧ c ≠ '\\' ∧ 32 ≤ c.toNat) : SpellsText cs cs := by
  induction cs with
  | nil => exact .nil
  | cons c cs ih =>
    obtain ⟨⟨hquote, hslash, hcontrol⟩, hrest⟩ := List.forall_mem_cons.1 h
    exact .cons (.itself hquote hslash hcontrol) (ih hrest)

/-- A character is spelled as it is written. -/
theorem spellsChar_escapeChar (c : Char) : SpellsChar (escapeChar c) c := by
  unfold escapeChar
  split
  · rename_i h; subst h; exact .short (by decide)
  split
  · rename_i h; subst h; exact .short (by decide)
  split
  · rename_i h
    have hc : c = '\x08' := Char.toNat_inj.1 h
    subst hc; exact .short (by decide)
  split
  · rename_i h
    have hc : c = '\x0c' := Char.toNat_inj.1 h
    subst hc; exact .short (by decide)
  split
  · rename_i h; subst h; exact .short (by decide)
  split
  · rename_i h; subst h; exact .short (by decide)
  split
  · rename_i h; subst h; exact .short (by decide)
  split
  · exact .unit (Text.unitOfHex?_of_digits Text.hexValue?_hexDigit (by omega))
  · exact .itself ‹_› ‹_› (by omega)

/-- A text is spelled as it is written. -/
theorem spellsText_escaped (cs : List Char) : SpellsText (cs.flatMap escapeChar) cs := by
  induction cs with
  | nil => exact .nil
  | cons c cs ih => exact .cons (spellsChar_escapeChar c) ih

/-! ### What stands behind a number -/

/-- What can stand behind a number: the end, a blank, or what separates and closes. -/
def Stops (rest : List Char) : Prop :=
  ∀ c ∈ rest.head?, isSpace c = true ∨ c = ',' ∨ c = ']' ∨ c = '\x7d'

theorem stops_cons {c : Char} {rest : List Char}
    (h : isSpace c = true ∨ c = ',' ∨ c = ']' ∨ c = '\x7d') : Stops (c :: rest) := by
  intro d hd
  obtain rfl := Option.some.inj hd
  exact h

theorem Stops.not_digit {c : Char} {rest : List Char} (h : Stops (c :: rest)) :
    c.isDigit = false ∧ c ≠ '.' ∧ c ≠ 'e' ∧ c ≠ 'E' := by
  have hc := h c rfl
  simp only [isSpace, Bool.or_eq_true, beq_iff_eq] at hc
  rcases hc with (((rfl | rfl) | rfl) | rfl) | rfl | rfl | rfl <;> decide

theorem Stops.head_not_digit {rest : List Char} (h : Stops rest) :
    ∀ c ∈ rest.head?, c.isDigit = false := by
  cases rest with
  | nil => exact fun c hc => absurd hc (Option.not_mem_none c)
  | cons c rest =>
    intro d hd
    obtain rfl := Option.some.inj hd
    exact h.not_digit.1

/-! ### Numbers -/

/-- Whether characters are one digit or more. -/
structure IsDigits (cs : List Char) : Prop where
  ne_nil : cs ≠ []
  digits : ∀ c ∈ cs, c.isDigit = true

/-- Whether characters are a point with digits behind it, or nothing. -/
inductive IsFraction : List Char → Prop
  | none : IsFraction []
  | point {ds : List Char} (h : IsDigits ds) : IsFraction ('.' :: ds)

/-- Whether characters are an exponent with or without a sign, or nothing. -/
inductive IsExponent : List Char → Prop
  | none : IsExponent []
  | plain {e : Char} {ds : List Char} (he : e = 'e' ∨ e = 'E') (h : IsDigits ds) :
      IsExponent (e :: ds)
  | signed {e s : Char} {ds : List Char} (he : e = 'e' ∨ e = 'E') (hs : s = '+' ∨ s = '-')
      (h : IsDigits ds) : IsExponent (e :: s :: ds)

/-- Whether characters are a number without sign. In front of the point stands a zero alone, or a
digit other than zero. -/
structure IsUnsigned (whole fraction exponent : List Char) : Prop where
  digits : IsDigits whole
  zero : whole.head? = some '0' → whole = ['0']
  isFraction : IsFraction fraction
  isExponent : IsExponent exponent

/-- Whether characters are a number. -/
inductive IsNumber : List Char → Prop
  | positive {whole fraction exponent : List Char} (h : IsUnsigned whole fraction exponent) :
      IsNumber (whole ++ (fraction ++ exponent))
  | negative {whole fraction exponent : List Char} (h : IsUnsigned whole fraction exponent) :
      IsNumber ('-' :: (whole ++ (fraction ++ exponent)))

theorem IsDigits.eq_cons {cs : List Char} (h : IsDigits cs) :
    ∃ d ds, cs = d :: ds ∧ d.isDigit = true := by
  cases cs with
  | nil => exact absurd rfl h.ne_nil
  | cons d ds => exact ⟨d, ds, rfl, h.digits d List.mem_cons_self⟩

theorem IsDigits.readDigits {ds : List Char} (h : IsDigits ds) {rest : List Char}
    (hrest : ∀ c ∈ rest.head?, c.isDigit = false) : readDigits (ds ++ rest) = some (ds, rest) := by
  have hhead : rest.takeWhile Char.isDigit = [] ∧ rest.dropWhile Char.isDigit = rest := by
    cases rest with
    | nil => exact ⟨rfl, rfl⟩
    | cons c rest =>
      rw [List.takeWhile_cons, List.dropWhile_cons, hrest c rfl]
      exact ⟨rfl, rfl⟩
  rw [Json.readDigits, List.takeWhile_append_of_pos h.digits,
    List.dropWhile_append_of_pos h.digits, hhead.1, hhead.2, List.append_nil]
  cases ds with
  | nil => exact absurd rfl h.ne_nil
  | cons => rfl

/-- The digits in front of the point are a zero alone, or do not start with one. -/
theorem IsDigits.readWhole {ds : List Char} (h : IsDigits ds)
    (hzero : ds.head? = some '0' → ds = ['0']) {rest : List Char}
    (hrest : ∀ c ∈ rest.head?, c.isDigit = false) : readWhole (ds ++ rest) = some (ds, rest) := by
  by_cases hhead : ds.head? = some '0'
  · have hdigit : (rest.head?.map Char.isDigit).getD false = false := by
      cases rest with
      | nil => rfl
      | cons c rest => exact hrest c rfl
    rw [hzero hhead, List.singleton_append, Json.readWhole, hdigit]
    rfl
  · rw [← h.readDigits hrest]
    obtain ⟨d, ds, rfl, -⟩ := h.eq_cons
    rw [List.cons_append]
    unfold Json.readWhole
    split
    · rename_i heq
      exact absurd (congrArg some (List.cons.inj heq).1) hhead
    · rfl

theorem IsExponent.readExponent {cs : List Char} (h : IsExponent cs) {rest : List Char}
    (hrest : Stops rest) : readExponent (cs ++ rest) = some (cs, rest) := by
  cases h with
  | none =>
    cases rest with
    | nil => rfl
    | cons c rest =>
      have hletter : ¬ (c = 'e' ∨ c = 'E') := by
        rintro (he | he)
        · exact hrest.not_digit.2.2.1 he
        · exact hrest.not_digit.2.2.2 he
      rw [List.nil_append, Json.readExponent.eq_def]
      exact if_neg hletter
  | @plain e ds he h =>
    have hdigits := h.readDigits hrest.head_not_digit
    obtain ⟨d, more, rfl, hd⟩ := h.eq_cons
    have hsign : ¬ (d = '+' ∨ d = '-') := by
      rintro (rfl | rfl) <;> exact absurd hd (by decide)
    simp only [List.cons_append, Json.readExponent, if_pos he, if_neg hsign] at hdigits ⊢
    rw [hdigits]
    rfl
  | @signed e s ds he hs h =>
    have hdigits := h.readDigits hrest.head_not_digit
    simp only [List.cons_append, Json.readExponent, if_pos he, if_pos hs, hdigits]
    rfl

/-- An exponent starts with neither a digit nor a point. -/
theorem IsExponent.head_append {cs : List Char} (h : IsExponent cs) {rest : List Char}
    (hrest : Stops rest) : ∀ c ∈ (cs ++ rest).head?, c.isDigit = false ∧ c ≠ '.' := by
  have hletter : ∀ e : Char, e = 'e' ∨ e = 'E' → e.isDigit = false ∧ e ≠ '.' := by
    rintro e (rfl | rfl) <;> decide
  intro c hc
  cases h with
  | none =>
    cases rest with
    | nil => cases hc
    | cons d rest =>
      obtain rfl := Option.some.inj hc
      exact ⟨hrest.not_digit.1, hrest.not_digit.2.1⟩
  | plain he =>
    obtain rfl := Option.some.inj hc
    exact hletter _ he
  | signed he =>
    obtain rfl := Option.some.inj hc
    exact hletter _ he

theorem IsFraction.readFraction {cs : List Char} (h : IsFraction cs) {rest : List Char}
    (hrest : ∀ c ∈ rest.head?, c.isDigit = false ∧ c ≠ '.') :
    readFraction (cs ++ rest) = some (cs, rest) := by
  cases h with
  | none =>
    unfold Json.readFraction
    split
    · rename_i heq
      rw [List.nil_append] at heq
      exact absurd rfl (hrest '.' (by rw [heq]; rfl)).2
    · rfl
  | point h =>
    rw [List.cons_append, Json.readFraction, h.readDigits fun c hc => (hrest c hc).1]
    rfl

/-- A fraction does not start with a digit. -/
theorem IsFraction.head_append {cs : List Char} (h : IsFraction cs) {rest : List Char}
    (hrest : ∀ c ∈ rest.head?, c.isDigit = false ∧ c ≠ '.') :
    ∀ c ∈ (cs ++ rest).head?, c.isDigit = false := by
  intro c hc
  cases h with
  | none => exact (hrest c hc).1
  | point =>
    obtain rfl := Option.some.inj hc
    rfl

theorem IsUnsigned.readUnsigned {whole fraction exponent : List Char}
    (h : IsUnsigned whole fraction exponent) {rest : List Char} (hrest : Stops rest) :
    readUnsigned (whole ++ (fraction ++ exponent) ++ rest) =
      some (whole ++ (fraction ++ exponent), rest) := by
  have hexponent := h.isExponent.head_append hrest
  have hwhole := h.digits.readWhole h.zero (h.isFraction.head_append hexponent)
  simp only [Json.readUnsigned, List.append_assoc, hwhole, h.isFraction.readFraction hexponent,
    h.isExponent.readExponent hrest, Option.bind_eq_bind, Option.bind_some, Option.pure_def]

/-- A number starts with a digit or the sign. -/
theorem IsNumber.eq_cons {cs : List Char} (h : IsNumber cs) :
    ∃ c rest, cs = c :: rest ∧ (c.isDigit = true ∨ c = '-') := by
  cases h with
  | positive h =>
    obtain ⟨d, ds, rfl, hd⟩ := h.digits.eq_cons
    exact ⟨d, _, rfl, .inl hd⟩
  | negative h => exact ⟨'-', _, rfl, .inr rfl⟩

/-- A number is read as it is written. -/
theorem IsNumber.readNumber {cs : List Char} (h : IsNumber cs) {rest : List Char}
    (hrest : Stops rest) : readNumber (cs ++ rest) = some (cs, rest) := by
  cases h with
  | positive h =>
    rw [← h.readUnsigned hrest]
    obtain ⟨d, ds, hds, hd⟩ := h.digits.eq_cons
    rw [hds, List.cons_append, List.cons_append]
    unfold Json.readNumber
    split
    · rename_i heq
      rw [(List.cons.inj heq).1] at hd
      exact absurd hd (by decide)
    · rfl
  | negative h =>
    rw [List.cons_append, Json.readNumber, h.readUnsigned hrest]
    rfl

/-- Only the number zero starts with a zero. -/
theorem head?_toDigits_ne_zero {n : Nat} (h : 0 < n) : (Nat.toDigits 10 n).head? ≠ some '0' := by
  have hsmall : ∀ m < 10, 0 < m → [m.digitChar].head? ≠ some '0' := by decide
  induction n using Nat.strongRecOn with
  | ind n ih =>
    by_cases hlt : n < 10
    · rw [Nat.toDigits_of_lt_base hlt]
      exact hsmall n hlt h
    · have hprefix := ih (n / 10) (by omega) (by omega)
      rw [Nat.toDigits_of_base_le (by decide) (by omega)]
      cases hds : Nat.toDigits 10 (n / 10) with
      | nil => exact absurd hds Nat.toDigits_ne_nil
      | cons d ds =>
        rw [hds] at hprefix
        exact hprefix

/-- A natural number as it is written is a number. -/
theorem isNumber_toDigits (n : Nat) : IsNumber (Nat.toDigits 10 n) := by
  have hwhole : IsDigits (Nat.toDigits 10 n) := ⟨Nat.toDigits_ne_nil, fun d hd =>
    Nat.isDigit_of_mem_toDigits (by decide) (by decide) hd⟩
  have hzero : (Nat.toDigits 10 n).head? = some '0' → Nat.toDigits 10 n = ['0'] := by
    intro hhead
    rcases Nat.eq_zero_or_pos n with rfl | hn
    · exact Nat.toDigits_zero 10
    · exact absurd hhead (head?_toDigits_ne_zero hn)
  have h := IsNumber.positive ⟨hwhole, hzero, .none, .none⟩
  rwa [List.append_nil, List.append_nil] at h

end ResourceCompiler.Json
