import ResourceCompiler.Resource.Invalid
import ResourceCompiler.Text.Blank
import ResourceCompiler.Text.Hex

/-!
# Colors

## Main definitions

* `Color`: four channels of one byte.
* `Color.ofText?`: reads `#RRGGBB`, which is opaque, and `#RRGGBBAA`.
* `Color.text`, `Color.argb`: the written form, and the one with the alpha channel in front.
* `Color.value`: the channels as one number.

## Main statements

* `Color.ofText?_text`: the written form reads back.
-/

namespace ResourceCompiler

/-- A color by its channels. -/
structure Color where
  red : UInt8
  green : UInt8
  blue : UInt8
  alpha : UInt8
deriving DecidableEq

namespace Color

/-- The color that three or four pairs of digits describe. Without a fourth pair it is opaque. -/
def ofDigits? : List Char → Option Color
  | [r1, r2, g1, g2, b1, b2] =>
    match Text.byteOfHex? r1 r2, Text.byteOfHex? g1 g2, Text.byteOfHex? b1 b2 with
    | some r, some g, some b => some ⟨r, g, b, 255⟩
    | _, _, _ => none
  | [r1, r2, g1, g2, b1, b2, a1, a2] =>
    match Text.byteOfHex? r1 r2, Text.byteOfHex? g1 g2, Text.byteOfHex? b1 b2,
      Text.byteOfHex? a1 a2 with
    | some r, some g, some b, some a => some ⟨r, g, b, a⟩
    | _, _, _, _ => none
  | _ => none

/-- The color that a text without blanks at its ends describes. -/
def ofTrimmed? : List Char → Option Color
  | '#' :: digits => ofDigits? digits
  | _ => none

/-- Reads a color. Blanks at the two ends do not count. -/
def ofText? (s : String) : Except InvalidValue Color :=
  match ofTrimmed? (Text.trimmed s.toList) with
  | some c => .ok c
  | none => .error (.color s)

/-- The pairs of digits of the channels red, green, blue. -/
def rgbDigits (c : Color) : List Char :=
  Text.hexByteUpper c.red ++ Text.hexByteUpper c.green ++ Text.hexByteUpper c.blue

/-- The written form `#RRGGBBAA`. -/
def text (c : Color) : String :=
  String.ofList ('#' :: (c.rgbDigits ++ Text.hexByteUpper c.alpha))

/-- The form `#AARRGGBB`. -/
def argb (c : Color) : String :=
  String.ofList ('#' :: (Text.hexByteUpper c.alpha ++ c.rgbDigits))

instance : ToString Color := ⟨text⟩

/-- The channels as the bytes of one number, red the most significant. -/
def value (c : Color) : Nat :=
  ((c.red.toNat * 256 + c.green.toNat) * 256 + c.blue.toNat) * 256 + c.alpha.toNat

/-! ### Reading the written form -/

theorem ofText?_eq_ok_iff {s : String} {c : Color} :
    ofText? s = .ok c ↔ ofTrimmed? (Text.trimmed s.toList) = some c := by
  rw [ofText?]
  cases ofTrimmed? (Text.trimmed s.toList) with
  | none => exact ⟨nofun, nofun⟩
  | some c' => rw [Except.ok.injEq, Option.some.injEq]

theorem isBlank_hexDigitUpper : ∀ n < 16, Text.isBlank (Text.hexDigitUpper n) = false := by decide

theorem trimmed_text (c : Color) : Text.trimmed c.text.toList = c.text.toList := by
  apply Text.trimmed_eq_self
  · simp [text]; decide
  · simp only [text, rgbDigits, Text.hexByteUpper, String.toList_ofList, List.cons_append,
      List.nil_append, List.getLast?_cons_cons, List.getLast?_singleton, Option.mem_def,
      Option.some.injEq, forall_eq']
    exact isBlank_hexDigitUpper _ (by omega)

/-- The written form of a color reads as that color. -/
theorem ofText?_text (c : Color) : ofText? c.text = .ok c := by
  rw [ofText?, trimmed_text]
  simp [text, rgbDigits, Text.hexByteUpper, ofTrimmed?, ofDigits?, Text.byteOfHex?_hexByteUpper]

end Color

end ResourceCompiler
