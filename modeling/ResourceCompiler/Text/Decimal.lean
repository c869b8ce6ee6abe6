/-!
# Decimal numbers

Numbers in decimal digits, and whether they lie in the range of floating point numbers of double
precision. The magnitude of the largest of these is `2 ^ 1024 - 2 ^ 971`; what lies at the midpoint
between it and the next power of two, or above, rounds to infinity.

## Main definitions

* `Text.digitsValue`: the number that digits stand for.
* `Decimal`: digits with a power of ten.
* `Decimal.isFinite`: whether the nearest floating point number is finite.
* `roundToDouble`: a whole number in double precision.

## Main statements

* `Decimal.isFinite_iff`: a decimal number is finite when it is below the midpoint.
* `roundToDouble_of_lt`: whole numbers of up to 53 bits are exact.
-/

namespace ResourceCompiler

namespace Text

/-- The number that a sequence of decimal digits stands for. -/
def digitsValue (ds : List Char) : Nat := ds.foldl (fun n d => 10 * n + (d.toNat - 48)) 0

/-- Digits are worth less than the power of ten by their number. -/
theorem digitsValue_lt {ds : List Char} (h : ds.all Char.isDigit = true) :
    digitsValue ds < Nat.pow 10 ds.length := by
  suffices ∀ n, ds.foldl (fun n d => 10 * n + (d.toNat - 48)) n < (n + 1) * 10 ^ ds.length by
    simpa [digitsValue] using this 0
  induction ds with
  | nil => simp
  | cons d ds ih =>
    intro n
    rw [List.all_cons, Bool.and_eq_true] at h
    have hd : d.toNat ≤ 57 := by
      have := h.1
      simp only [Char.isDigit, Bool.and_eq_true, decide_eq_true_eq] at this
      exact this.2
    calc ds.foldl _ (10 * n + (d.toNat - 48))
        < (10 * n + (d.toNat - 48) + 1) * 10 ^ ds.length := ih h.2 _
      _ ≤ ((n + 1) * 10) * 10 ^ ds.length := Nat.mul_le_mul_right _ (by omega)
      _ = (n + 1) * 10 ^ (ds.length + 1) := by rw [Nat.mul_assoc, Nat.pow_succ']

end Text

/-- The magnitudes from here on round to infinity. -/
def overflowBound : Nat := Nat.pow 2 1024 - Nat.pow 2 970

theorem pow_308_lt_overflowBound : Nat.pow 10 308 < overflowBound := by decide +kernel

theorem overflowBound_le_pow_309 : overflowBound ≤ Nat.pow 10 309 := by decide +kernel

/-- A number without sign: digits, multiplied with a power of ten. -/
structure Decimal where
  digits : List Char
  exponent : Int
deriving DecidableEq

namespace Decimal

/-- Whether the nearest floating point number is finite. The number of digits decides far from the
bound. -/
def isFinite (d : Decimal) : Bool :=
  let n := Text.digitsValue d.digits
  if n = 0 ∨ d.exponent + d.digits.length ≤ 308 then true
  else if 309 ≤ d.exponent then false
  else n * Nat.pow 10 d.exponent.toNat < overflowBound * Nat.pow 10 (-d.exponent).toNat

/-- A decimal number is finite when it is below the bound. -/
theorem isFinite_iff {d : Decimal} (h : d.digits.all Char.isDigit = true) :
    d.isFinite = true ↔
      Text.digitsValue d.digits * Nat.pow 10 d.exponent.toNat
        < overflowBound * Nat.pow 10 (-d.exponent).toNat := by
  have hlt := Text.digitsValue_lt h
  obtain ⟨low, hlow, hb⟩ : ∃ low, low = 308 ∧ Nat.pow 10 low < overflowBound :=
    ⟨308, rfl, pow_308_lt_overflowBound⟩
  obtain ⟨high, hhigh, ha⟩ : ∃ high, high = 309 ∧ overflowBound ≤ Nat.pow 10 high :=
    ⟨309, rfl, overflowBound_le_pow_309⟩
  have hpow : ∀ k : Nat, 0 < 10 ^ k := fun k => Nat.pow_pos (by decide)
  unfold isFinite
  generalize Text.digitsValue d.digits = n at *
  generalize d.digits.length = k at *
  generalize d.exponent = e at *
  simp only
  split
  next hsmall =>
    simp only [true_iff]
    rcases hsmall with rfl | hsmall
    · rw [Nat.zero_mul]
      exact Nat.mul_pos (Nat.zero_lt_of_lt hb) (hpow _)
    · calc n * 10 ^ e.toNat < 10 ^ k * 10 ^ e.toNat := Nat.mul_lt_mul_of_pos_right hlt (hpow _)
        _ = 10 ^ (k + e.toNat) := (Nat.pow_add ..).symm
        _ ≤ 10 ^ (low + (-e).toNat) := Nat.pow_le_pow_right (by decide) (by omega)
        _ = 10 ^ low * 10 ^ (-e).toNat := Nat.pow_add ..
        _ ≤ overflowBound * 10 ^ (-e).toNat := Nat.mul_le_mul_right _ (Nat.le_of_lt hb)
  next hsmall =>
    split
    next hlarge =>
      simp only [Bool.false_eq_true, false_iff, Nat.not_lt]
      have hn : 1 ≤ n := by omega
      rw [show (-e).toNat = 0 by omega, show Nat.pow 10 0 = 1 from rfl, Nat.mul_one]
      calc overflowBound ≤ 10 ^ high := ha
        _ ≤ 10 ^ e.toNat := Nat.pow_le_pow_right (by decide) (by omega)
        _ ≤ n * 10 ^ e.toNat := Nat.le_mul_of_pos_left _ hn
    next => exact decide_eq_true_iff

end Decimal

/-- A whole number in double precision: rounded to 53 bits, to the nearest, and to the even one of
two that are as near. -/
def roundToDouble (n : Nat) : Nat :=
  let unit := Nat.pow 2 (n.log2 + 1 - 53)
  let quotient := n / unit
  let remainder := n % unit
  if 2 * remainder < unit ∨ (2 * remainder = unit ∧ quotient % 2 = 0) then quotient * unit
  else (quotient + 1) * unit

/-- Whole numbers of up to 53 bits are exact. -/
theorem roundToDouble_of_lt {n : Nat} (h : n < Nat.pow 2 53) : roundToDouble n = n := by
  have hlog : n.log2 + 1 - 53 = 0 := by
    by_cases hn : n = 0
    · subst hn; rfl
    · have := (Nat.log2_lt hn).2 h
      omega
  simp [roundToDouble, hlog, Nat.mod_one]

end ResourceCompiler
