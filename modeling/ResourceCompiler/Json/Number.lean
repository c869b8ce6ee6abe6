import ResourceCompiler.Text.Decimal

/-!
# Numbers of JSON

A number is kept as it is written. Where it is taken in, it becomes a floating point number, in
steps: its digits are gathered in a coefficient of 64 bits, the digits that do not fit are left out,
and the coefficient in double precision is multiplied with the power of ten in double precision.
The product can be infinite although the number itself lies just below the bound.

## Main definitions

* `Json.natural?`: the value of a number without sign, fraction and exponent.
* `Json.gather`: digits gathered in a coefficient.
* `Json.isFinite`: whether a number is taken in as a finite floating point number.

## Main statements

* `Json.gather_of_lt`: digits that all fit are gathered to their value.
-/

namespace ResourceCompiler.Json

/-- The value of a number without sign, fraction and exponent. -/
def natural? (written : List Char) : Option Nat :=
  if written ≠ [] ∧ written.all Char.isDigit then some (Text.digitsValue written) else none

/-! ### Parts -/

/-- The parts of a number without its sign. -/
structure NumberParts where
  whole : List Char
  fraction : List Char
  exponent : Int
deriving DecidableEq

/-- The value of an exponent with the letter in front of it. -/
def exponentValue : List Char → Int
  | _ :: '-' :: ds => - Text.digitsValue ds
  | _ :: '+' :: ds => Text.digitsValue ds
  | _ :: ds => Text.digitsValue ds
  | [] => 0

/-- The parts of a number as it is written. -/
def numberParts (written : List Char) : NumberParts :=
  let unsigned := written.dropWhile (· = '-')
  let whole := unsigned.takeWhile Char.isDigit
  match unsigned.dropWhile Char.isDigit with
  | '.' :: rest =>
    ⟨whole, rest.takeWhile Char.isDigit, exponentValue (rest.dropWhile Char.isDigit)⟩
  | rest => ⟨whole, [], exponentValue rest⟩

/-! ### Range -/

/-- Digits gathered in a coefficient up to the first one that does not fit into 64 bits, and the
number of those that are left. -/
def gather : Nat → List Char → Nat × Nat
  | n, [] => (n, 0)
  | n, d :: ds =>
    let m := 10 * n + (d.toNat - 48)
    if m < Nat.pow 2 64 then gather m ds else (n, ds.length + 1)

/-- The largest exponent of a power of ten in double precision. -/
def maxExponent : Int := 308

/-- Whether a number is taken in as a finite floating point number. Digits in front of the point
that are left out count as zeros; after them, digits behind the point may fit again. -/
def isFinite (written : List Char) : Bool :=
  let parts := numberParts written
  let (whole, dropped) := gather 0 parts.whole
  let (coefficient, ignored) := gather whole parts.fraction
  let exponent := parts.exponent + dropped - (parts.fraction.length - ignored : Nat)
  if coefficient = 0 ∨ exponent < 0 then true
  else if maxExponent < exponent then false
  else roundToDouble coefficient * roundToDouble (Nat.pow 10 exponent.toNat) < overflowBound

/-- Digits that all fit are gathered to their value. -/
theorem gather_of_lt {n : Nat} {ds : List Char}
    (h : ds.foldl (fun n d => 10 * n + (d.toNat - 48)) n < Nat.pow 2 64) :
    gather n ds = (ds.foldl (fun n d => 10 * n + (d.toNat - 48)) n, 0) := by
  have hle : ∀ (ds : List Char) (n : Nat),
      n ≤ ds.foldl (fun n d => 10 * n + (d.toNat - 48)) n := by
    intro ds
    induction ds with
    | nil => intro n; exact Nat.le_refl n
    | cons d ds ih => intro n; exact Nat.le_trans (show n ≤ 10 * n + _ by omega) (ih _)
  induction ds generalizing n with
  | nil => rfl
  | cons d ds ih =>
    rw [List.foldl_cons] at h ⊢
    rw [gather, if_pos (Nat.lt_of_le_of_lt (hle ds _) h), ih h]

end ResourceCompiler.Json
