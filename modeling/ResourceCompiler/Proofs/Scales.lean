import Mathlib.Algebra.Order.Field.Rat
import Mathlib.Data.List.Induction
import ResourceCompiler.Proofs.Native.ImageNames
import ResourceCompiler.Text.Decimal

/-!
# Written scales

A text is a scale if it is `vector`, or a decimal number with an `x` behind it. The form of the
number is all that counts: it may be zero, which is no scale that an image can be drawn at. The mark
that a scale leaves in the name of a file tells the scale again.

* `Text.Numeral`: decimal numbers as they are written, and their values.
* `Text.Numeral.value_eq_zero_iff`: the numbers that are zero.
* `isScaleNumber_iff`: the numbers that scales are given by.
* `Scale.exists_ofText?_iff`: the texts that are scales.
* `Scale.reads_numerals`: which of these have a number above zero, and what their marks tell.
-/

namespace ResourceCompiler

namespace Text

/-! ### Decimal numbers -/

/-- Digits, at least one. -/
structure Digits where
  chars : List Char
  ne_nil : chars ≠ []
  isDigit : ∀ d ∈ chars, d.isDigit = true

/-- A decimal number as it is written: digits, and perhaps a dot with digits behind it. -/
structure Numeral where
  whole : Digits
  fraction : Option Digits

theorem digitsValue_concat (front : List Char) (d : Char) :
    digitsValue (front ++ [d]) = 10 * digitsValue front + (d.toNat - 48) := by
  rw [digitsValue, List.foldl_append]
  rfl

theorem eq_zero_of_isDigit_iff {d : Char} (h : d.isDigit = true) : d.toNat - 48 = 0 ↔ d = '0' := by
  have hlow : 48 ≤ d.toNat := (Char.isDigit_iff_toNat.1 h).1
  rw [← Char.toNat_inj, show '0'.toNat = 48 from rfl]
  omega

/-- Digits stand for zero if each of them is one. -/
theorem digitsValue_eq_zero_iff {ds : List Char} (h : ∀ d ∈ ds, d.isDigit = true) :
    digitsValue ds = 0 ↔ ∀ d ∈ ds, d = '0' := by
  induction ds using List.reverseRecOn with
  | nil => exact iff_of_true rfl (List.forall_mem_nil _)
  | append_singleton front d ih =>
    rw [List.forall_mem_append, List.forall_mem_singleton] at h ⊢
    rw [digitsValue_concat, ← ih h.1, ← eq_zero_of_isDigit_iff h.2]
    omega

namespace Digits

/-- The share of one that digits behind a dot stand for. -/
def share (ds : Digits) : ℚ := digitsValue ds.chars / 10 ^ ds.chars.length

theorem share_nonneg (ds : Digits) : 0 ≤ ds.share :=
  div_nonneg (Nat.cast_nonneg _) (pow_nonneg (by decide) _)

theorem share_eq_zero_iff (ds : Digits) : ds.share = 0 ↔ digitsValue ds.chars = 0 := by
  have hpow : (10 : ℚ) ^ ds.chars.length ≠ 0 := pow_ne_zero _ (by decide)
  rw [share, div_eq_zero_iff, or_iff_left hpow, Nat.cast_eq_zero]

theorem dot_notMem (ds : Digits) : '.' ∉ ds.chars := fun hmem =>
  absurd (ds.isDigit _ hmem) (by decide)

theorem value_eq_zero_iff (ds : Digits) :
    digitsValue ds.chars = 0 ↔ ∀ c ∈ ds.chars, c = '0' ∨ c = '.' := by
  rw [digitsValue_eq_zero_iff ds.isDigit]
  refine forall₂_congr fun c hc => (or_iff_left ?_).symm
  rintro rfl
  exact ds.dot_notMem hc

end Digits

namespace Numeral

/-- The written form. -/
def text : Numeral → List Char
  | ⟨whole, none⟩ => whole.chars
  | ⟨whole, some fraction⟩ => whole.chars ++ '.' :: fraction.chars

theorem text_ne_nil (n : Numeral) : n.text ≠ [] := by
  obtain ⟨whole, _ | fraction⟩ := n
  · exact whole.ne_nil
  · exact List.append_ne_nil_of_left_ne_nil whole.ne_nil _

theorem isDigit_or_eq_dot (n : Numeral) : ∀ c ∈ n.text, c.isDigit = true ∨ c = '.' := by
  obtain ⟨whole, _ | fraction⟩ := n
  · exact fun c hc => .inl (whole.isDigit c hc)
  · rw [text, List.forall_mem_append, List.forall_mem_cons]
    exact ⟨fun c hc => .inl (whole.isDigit c hc), .inr rfl,
      fun c hc => .inl (fraction.isDigit c hc)⟩

theorem head?_ne_dot (n : Numeral) : n.text.head? ≠ some '.' := by
  have hwhole (whole : Digits) : whole.chars.head? ≠ some '.' := fun h =>
    whole.dot_notMem (List.mem_of_mem_head? h)
  obtain ⟨whole, _ | fraction⟩ := n
  · exact hwhole whole
  · rw [text, List.head?_append_of_ne_nil _ whole.ne_nil]
    exact hwhole whole

theorem getLast?_ne_dot (n : Numeral) : n.text.getLast? ≠ some '.' := by
  have hlast (ds : Digits) : ds.chars.getLast? ≠ some '.' := fun h =>
    ds.dot_notMem (List.mem_of_mem_getLast? h)
  obtain ⟨whole, _ | fraction⟩ := n
  · exact hlast whole
  · rw [text, List.append_cons, List.getLast?_append_of_ne_nil _ fraction.ne_nil]
    exact hlast fraction

theorem count_dot_le_one (n : Numeral) : n.text.count '.' ≤ 1 := by
  have hcount (ds : Digits) : ds.chars.count '.' = 0 := List.count_eq_zero.2 ds.dot_notMem
  obtain ⟨whole, _ | fraction⟩ := n
  · rw [text, hcount]
    exact Nat.zero_le 1
  · rw [text, List.count_append, List.count_cons_self, hcount, hcount]

/-- The number: what stands in front of the dot, and the share of one that stands behind it. -/
def value : Numeral → ℚ
  | ⟨whole, none⟩ => digitsValue whole.chars
  | ⟨whole, some fraction⟩ => digitsValue whole.chars + fraction.share

theorem value_nonneg (n : Numeral) : 0 ≤ n.value := by
  obtain ⟨whole, _ | fraction⟩ := n
  · exact Nat.cast_nonneg _
  · exact add_nonneg (Nat.cast_nonneg _) fraction.share_nonneg

/-- A number is zero if it is written with no other digit. -/
theorem value_eq_zero_iff (n : Numeral) : n.value = 0 ↔ ∀ c ∈ n.text, c = '0' ∨ c = '.' := by
  obtain ⟨whole, _ | fraction⟩ := n
  · rw [value, Nat.cast_eq_zero, whole.value_eq_zero_iff, text]
  · rw [value, add_eq_zero_iff_of_nonneg (Nat.cast_nonneg _) fraction.share_nonneg,
      Nat.cast_eq_zero, fraction.share_eq_zero_iff, whole.value_eq_zero_iff,
      fraction.value_eq_zero_iff, text, List.forall_mem_append, List.forall_mem_cons]
    exact and_congr_right fun _ => (and_iff_right (.inr rfl)).symm

theorem value_pos_iff (n : Numeral) : 0 < n.value ↔ ¬ ∀ c ∈ n.text, c = '0' ∨ c = '.' := by
  rw [← value_eq_zero_iff, n.value_nonneg.lt_iff_ne']

end Numeral

end Text

open Text

/-- **The numbers that scales are given by** are the decimal numbers. -/
theorem isScaleNumber_iff {cs : List Char} :
    isScaleNumber cs = true ↔ ∃ n : Numeral, n.text = cs := by
  simp only [isScaleNumber, Bool.and_eq_true, Bool.not_eq_true', List.isEmpty_eq_false_iff,
    bne_iff_ne, List.all_eq_true, Bool.or_eq_true, beq_iff_eq, decide_eq_true_eq]
  constructor
  · rintro ⟨⟨⟨⟨hne, hhead⟩, hlast⟩, hall⟩, hcount⟩
    by_cases hdot : '.' ∈ cs
    -- No dot stands in front of the last one, which therefore divides the text.
    · obtain ⟨whole, fraction, rfl, hfraction⟩ := Text.exists_last hdot
      rw [List.count_append, List.count_cons_self] at hcount
      have hwhole : '.' ∉ whole := List.count_eq_zero.1 (by omega)
      have hdigits {part : List Char} (hpart : '.' ∉ part)
          (hsub : part ⊆ whole ++ '.' :: fraction) : ∀ d ∈ part, d.isDigit = true :=
        fun d hd => (hall d (hsub hd)).resolve_right (ne_of_mem_of_not_mem hd hpart)
      have hfront : whole ≠ [] := by
        rintro rfl
        exact hhead rfl
      have hback : fraction ≠ [] := by
        rintro rfl
        exact hlast List.getLast?_concat
      exact ⟨⟨⟨whole, hfront, hdigits hwhole (List.subset_append_left _ _)⟩,
        some ⟨fraction, hback, hdigits hfraction
          (List.subset_append_of_subset_right _ (List.subset_cons_self _ _))⟩⟩, rfl⟩
    · exact ⟨⟨⟨cs, hne, fun d hd =>
        (hall d hd).resolve_right (ne_of_mem_of_not_mem hd hdot)⟩, none⟩, rfl⟩
  · rintro ⟨n, rfl⟩
    exact ⟨⟨⟨⟨n.text_ne_nil, n.head?_ne_dot⟩, n.getLast?_ne_dot⟩, n.isDigit_or_eq_dot⟩,
      n.count_dot_le_one⟩

namespace Scale

/-! ### Texts -/

/-- Whether a text is a decimal number with an `x` behind it. -/
def Shows (s : String) (n : Numeral) : Prop := s.toList = n.text ++ ['x']

theorem Shows.ne_vector {s : String} {n : Numeral} (h : Shows s n) : s ≠ "vector" := by
  rintro rfl
  have hlast := congrArg List.getLast? h
  rw [List.getLast?_concat] at hlast
  exact absurd hlast (by decide)

theorem Shows.text_eq {s : String} {n n' : Numeral} (h : Shows s n) (h' : Shows s n') :
    n.text = n'.text :=
  List.append_cancel_right (h.symm.trans h')

/-- **The texts that are scales** are `vector` and the decimal numbers with an `x` behind them. -/
theorem exists_ofText?_iff (s : String) :
    (∃ scale, ofText? s = .ok scale) ↔ s = "vector" ∨ ∃ n, Shows s n := by
  constructor
  · rintro ⟨scale, hscale⟩
    obtain rfl := text_of_ofText?_eq_ok hscale
    cases scale with
    | vector => exact .inl rfl
    | raster number hnumber =>
      obtain ⟨n, hn⟩ := isScaleNumber_iff.1 hnumber
      exact .inr ⟨n, by rw [Shows, text, String.toList_append, hn]; rfl⟩
  · rintro (rfl | ⟨n, hn⟩)
    · exact ⟨vector, rfl⟩
    · have hnumber : isScaleNumber (String.ofList n.text).toList = true :=
        isScaleNumber_iff.2 ⟨n, String.toList_ofList.symm⟩
      have htext : (raster (String.ofList n.text) hnumber).text = s := by
        apply String.toList_injective
        rw [text, String.toList_append, String.toList_ofList, hn]
        rfl
      exact ⟨_, htext ▸ ofText?_text _⟩

/-- A text that is no scale is named in its refusal. -/
theorem exists_ofText?_or_error (s : String) :
    (∃ scale, ofText? s = .ok scale) ∨ ofText? s = .error (.scale s) := by
  unfold ofText?
  split
  · exact .inl ⟨vector, rfl⟩
  split
  · split
    · exact .inl ⟨_, rfl⟩
    · exact .inr rfl
  · exact .inr rfl

/-- A text is read as a scale just as if its number had to be above zero, except where it shows a
number without any other digit than zero. -/
theorem reads_positive_iff (s : String) :
    ((∃ scale, ofText? s = .ok scale) ↔ s = "vector" ∨ ∃ n, Shows s n ∧ 0 < n.value) ↔
      ¬ ∃ n, Shows s n ∧ ∀ c ∈ n.text, c = '0' ∨ c = '.' := by
  rw [exists_ofText?_iff]
  constructor
  -- Both numbers are written with the characters in front of the `x`.
  · rintro hproper ⟨n, hn, hzeros⟩
    rcases hproper.1 (.inr ⟨n, hn⟩) with hvector | ⟨n', hn', hpos⟩
    · exact hn.ne_vector hvector
    · exact n'.value_pos_iff.1 hpos (hn.text_eq hn' ▸ hzeros)
  · intro hzeros
    refine or_congr_right (exists_congr fun n => (and_iff_left_of_imp fun hn => ?_).symm)
    exact n.value_pos_iff.2 fun hall => hzeros ⟨n, hn, hall⟩

/-! ### Marks -/

/-- The mark of a scale in the name of a raster image is its text behind an at sign. Only the plain
scale has none. -/
theorem fileSuffix_of_ofText? {s : String} {scale : Scale} (h : ofText? s = .ok scale)
    (hraster : scale ≠ vector) : scale.fileSuffix = if s = "1x" then "" else "@" ++ s := by
  obtain rfl := text_of_ofText?_eq_ok h
  rw [fileSuffix]
  refine if_congr ?_ rfl rfl
  rw [or_iff_right hraster]
  constructor
  · rintro rfl
    rfl
  · intro htext
    rw [htext] at h
    exact (Except.ok.inj h).symm

/-- **Scales are `vector` and decimal numbers, and names keep them.** A text is read as a scale if
and only if it is `vector` or a decimal number with an `x` behind it. That the number is above zero
is not asked: this makes a difference for the texts whose only digit is zero, and for no others.
What is not read is refused. A scale of raster images leaves its text behind an at sign, from which
it is read again; `1x` leaves nothing, and it is what a name without at sign is read as. -/
theorem reads_numerals (s : String) :
    ((∃ scale, ofText? s = .ok scale) ↔ s = "vector" ∨ ∃ n, Shows s n) ∧
    (((∃ scale, ofText? s = .ok scale) ↔ s = "vector" ∨ ∃ n, Shows s n ∧ 0 < n.value) ↔
      ¬ ∃ n, Shows s n ∧ ∀ c ∈ n.text, c = '0' ∨ c = '.') ∧
    ((¬ ∃ scale, ofText? s = .ok scale) → ofText? s = .error (.scale s)) ∧
    ∀ scale, ofText? s = .ok scale → scale ≠ vector →
      (s = "1x" → scale.fileSuffix = "") ∧
      (s ≠ "1x" → ∃ t, scale.fileSuffix = "@" ++ t ∧ ofText? t = .ok scale) ∧
      ∀ (key : Key) (format : ImageFormat), format ≠ .svg →
        Source.scaleOf format (key.text ++ scale.fileSuffix) = .ok (key.text, scale) := by
  refine ⟨exists_ofText?_iff s, reads_positive_iff s,
    (exists_ofText?_or_error s).resolve_left, fun scale hscale hraster => ?_⟩
  have hmark := fileSuffix_of_ofText? hscale hraster
  refine ⟨fun hplain => by rw [hmark, if_pos hplain], fun hmarked => ?_, fun key format hformat =>
    Native.scaleOf_fileSuffix key (iff_of_false hraster hformat)⟩
  exact ⟨s, by rw [hmark, if_neg hmarked], hscale⟩

/-- Zero is read as a scale, and the name of a file keeps it. -/
theorem reads_numerals_nought :
    (∃ scale, ofText? "0.0x" = .ok scale) ∧
      ¬ ("0.0x" = "vector" ∨ ∃ n, Shows "0.0x" n ∧ 0 < n.value) ∧
      ∃ scale, ofText? "0.0x" = .ok scale ∧ scale ≠ vector ∧
        (∃ t, scale.fileSuffix = "@" ++ t ∧ ofText? t = .ok scale) ∧
        Source.scaleOf .png ("lamp" ++ scale.fileSuffix) = .ok ("lamp", scale) := by
  have hdigit : ∀ d ∈ ['0'], d.isDigit = true := List.forall_mem_singleton.2 rfl
  have hshows : Shows "0.0x" ⟨⟨['0'], by decide, hdigit⟩, some ⟨['0'], by decide, hdigit⟩⟩ := rfl
  have hscale : ofText? "0.0x" = .ok (raster "0.0" (by decide)) := rfl
  obtain ⟨hread, hpositive, -, hmarks⟩ := reads_numerals "0.0x"
  have haccepted : ∃ scale, ofText? "0.0x" = .ok scale := hread.2 (.inr ⟨_, hshows⟩)
  obtain ⟨-, hmark, hname⟩ := hmarks _ hscale Scale.noConfusion
  refine ⟨haccepted, fun hproper => ?_, _, hscale, Scale.noConfusion, hmark (by decide),
    hname ⟨"lamp", by decide⟩ .png (by decide)⟩
  exact hpositive.1 (iff_of_true haccepted hproper) ⟨_, hshows, by simp [Numeral.text]⟩

end Scale

end ResourceCompiler
