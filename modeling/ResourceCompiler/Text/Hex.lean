/-!
# Hexadecimal digits

## Main definitions

* `hexDigit`, `hexDigitUpper`: the digit of a number below 16, in either case.
* `hexValue?`: the number that a digit of either case stands for.
* `hexByte`, `hexByteUpper`: the two digits of a byte.
* `byteOfHex?`: the byte that two digits stand for.

## Main statements

* `hexValue?_hexDigit`, `hexValue?_hexDigitUpper`, `byteOfHex?_hexByteUpper`: digits read back.
* `unitOfHex?_of_digits`: four digits read back.
-/

namespace ResourceCompiler.Text

/-- The lower case digit of a number below 16. -/
def hexDigit (n : Nat) : Char :=
  if n < 10 then Char.ofNat (48 + n) else Char.ofNat (87 + n)

/-- The upper case digit of a number below 16. -/
def hexDigitUpper (n : Nat) : Char :=
  if n < 10 then Char.ofNat (48 + n) else Char.ofNat (55 + n)

/-- The number that a hexadecimal digit stands for. -/
def hexValue? (c : Char) : Option Nat :=
  let n := c.toNat
  if 48 ≤ n ∧ n ≤ 57 then some (n - 48)
  else if 65 ≤ n ∧ n ≤ 70 then some (n - 55)
  else if 97 ≤ n ∧ n ≤ 102 then some (n - 87)
  else none

theorem hexValue?_hexDigit : ∀ n < 16, hexValue? (hexDigit n) = some n := by decide

theorem hexValue?_hexDigitUpper : ∀ n < 16, hexValue? (hexDigitUpper n) = some n := by decide

theorem hexValue?_lt {c : Char} {n : Nat} (h : hexValue? c = some n) : n < 16 := by
  unfold hexValue? at h
  simp only at h
  split at h
  · obtain rfl := Option.some.inj h; omega
  split at h
  · obtain rfl := Option.some.inj h; omega
  split at h
  · obtain rfl := Option.some.inj h; omega
  · simp at h

/-- Whether a character is a hexadecimal digit of either case. -/
def isHexDigit (c : Char) : Bool := (hexValue? c).isSome

/-- The two lower case digits of a byte. -/
def hexByte (b : UInt8) : List Char := [hexDigit (b.toNat / 16), hexDigit (b.toNat % 16)]

/-- The two upper case digits of a byte. -/
def hexByteUpper (b : UInt8) : List Char :=
  [hexDigitUpper (b.toNat / 16), hexDigitUpper (b.toNat % 16)]

/-- The byte that two digits stand for. -/
def byteOfHex? (high low : Char) : Option UInt8 :=
  match hexValue? high, hexValue? low with
  | some h, some l => some (UInt8.ofNat (16 * h + l))
  | _, _ => none

theorem byteOfHex?_hexByteUpper (b : UInt8) :
    byteOfHex? (hexDigitUpper (b.toNat / 16)) (hexDigitUpper (b.toNat % 16)) = some b := by
  have hb : b.toNat < 256 := b.toNat_lt
  rw [byteOfHex?, hexValue?_hexDigitUpper _ (by omega), hexValue?_hexDigitUpper _ (by omega)]
  simp only [Option.some.injEq]
  rw [show 16 * (b.toNat / 16) + b.toNat % 16 = b.toNat by omega]
  exact UInt8.ofNat_toNat

/-- The four upper case digits of a number below `2 ^ 16`. -/
def hexUnitUpper (n : Nat) : List Char :=
  [hexDigitUpper (n / 4096 % 16), hexDigitUpper (n / 256 % 16), hexDigitUpper (n / 16 % 16),
    hexDigitUpper (n % 16)]

/-- The four lower case digits of a number below `2 ^ 16`. -/
def hexUnit (n : Nat) : List Char :=
  [hexDigit (n / 4096 % 16), hexDigit (n / 256 % 16), hexDigit (n / 16 % 16), hexDigit (n % 16)]

/-- The number that four digits stand for. -/
def unitOfHex? (a b c d : Char) : Option Nat :=
  match hexValue? a, hexValue? b, hexValue? c, hexValue? d with
  | some a, some b, some c, some d => some (4096 * a + 256 * b + 16 * c + d)
  | _, _, _, _ => none

/-- Four digits of a number below `2 ^ 16` read back, in whichever case they are. -/
theorem unitOfHex?_of_digits {digit : Nat → Char}
    (hdigit : ∀ n < 16, hexValue? (digit n) = some n) {n : Nat} (h : n < 65536) :
    unitOfHex? (digit (n / 4096 % 16)) (digit (n / 256 % 16)) (digit (n / 16 % 16))
      (digit (n % 16)) = some n := by
  have hvalue : ∀ m, hexValue? (digit (m % 16)) = some (m % 16) := fun m =>
    hdigit (m % 16) (Nat.mod_lt m (by decide))
  rw [unitOfHex?, hvalue, hvalue, hvalue, hvalue]
  simp only [Option.some.injEq]
  omega

end ResourceCompiler.Text
