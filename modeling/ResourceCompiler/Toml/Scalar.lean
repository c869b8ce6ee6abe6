import ResourceCompiler.Text.Decimal
import ResourceCompiler.Text.Hex

/-!
# Numbers, dates and times of TOML

No setting takes a number, a date or a time, but each may stand where a value does not count, and
must be well formed there. So what is read has no value; a reader gives the text behind it.

## Main definitions

* `Toml.skipInteger`, `Toml.skipFloat`: numbers.
* `Toml.skipMoment`: a date, a time of day, or both.
* `Toml.skipScalar`: any of them.

## Main statements

* `Toml.moreDigits_append`: digits go on up to what is no digit and no underscore.
-/

namespace ResourceCompiler.Toml

/-- The text behind a word. -/
def readWord : List Char → List Char → Option (List Char)
  | [], cs => some cs
  | w :: word, c :: cs => if w = c then readWord word cs else none
  | _ :: _, [] => none

/-! ### Numbers -/

/-- Whether a character is a digit of numbers with a base. -/
def isDigitOf (base : Nat) (c : Char) : Bool := (Text.hexValue? c).any (· < base)

/-- The number that digits stand for. -/
def valueOf (base : Nat) (ds : List Char) : Nat :=
  ds.foldl (fun n d => base * n + (Text.hexValue? d).getD 0) 0

/-- The digits that go on after a digit, and the text behind them. An underscore may stand between
two digits. -/
def moreDigits (base : Nat) : List Char → List Char × List Char
  | '_' :: d :: rest =>
    if isDigitOf base d then
      let (ds, rest) := moreDigits base rest
      (d :: ds, rest)
    else ([], '_' :: d :: rest)
  | d :: rest =>
    if isDigitOf base d then
      let (ds, rest) := moreDigits base rest
      (d :: ds, rest)
    else ([], d :: rest)
  | [] => ([], [])

theorem not_isDigitOf_underscore (base : Nat) : isDigitOf base '_' = false := rfl

/-- Digits go on up to what is no digit and no underscore. -/
theorem moreDigits_append {base : Nat} {ds rest : List Char}
    (digits : ∀ d ∈ ds, isDigitOf base d = true)
    (ends : ∀ c ∈ rest.head?, c ≠ '_' ∧ isDigitOf base c = false) :
    moreDigits base (ds ++ rest) = (ds, rest) := by
  induction ds with
  | nil =>
    cases rest with
    | nil => simp [moreDigits]
    | cons c rest =>
      obtain ⟨hu, hd⟩ := ends c rfl
      rw [List.nil_append, moreDigits, hd]
      · rfl
      · rintro _ _ rfl; exact (hu rfl).elim
  | cons d ds ih =>
    have hd : isDigitOf base d = true := digits d List.mem_cons_self
    have hu : d ≠ '_' := by
      rintro rfl
      rw [not_isDigitOf_underscore] at hd
      cases hd
    rw [List.cons_append, moreDigits, hd, ih fun e he => digits e (List.mem_cons_of_mem d he)]
    · rfl
    · rintro _ _ rfl; exact (hu rfl).elim

/-- One digit or more, and the text behind them. -/
def readDigits (base : Nat) : List Char → Option (List Char × List Char)
  | d :: rest =>
    if isDigitOf base d then
      let (ds, rest) := moreDigits base rest
      some (d :: ds, rest)
    else none
  | [] => none

/-- The digits of a whole number: a zero alone, or digits that do not start with one. -/
def readWhole : List Char → Option (List Char × List Char)
  | '0' :: rest => some (['0'], rest)
  | cs => readDigits 10 cs

/-- Whether there is a minus in front, and the text without its sign. -/
def readSign : List Char → Bool × List Char
  | '-' :: rest => (true, rest)
  | '+' :: rest => (false, rest)
  | cs => (false, cs)

/-- The text behind the digits of a whole number with a base that is not ten. -/
def skipBased (base : Nat) (cs : List Char) : Option (List Char) := do
  let (ds, rest) ← readDigits base cs
  if valueOf base ds < Nat.pow 2 63 then some rest else none

/-- The text behind a whole number, which must fit into 64 bits with its sign. -/
def skipInteger (cs : List Char) : Option (List Char) :=
  match cs with
  | '0' :: 'x' :: rest => skipBased 16 rest
  | '0' :: 'o' :: rest => skipBased 8 rest
  | '0' :: 'b' :: rest => skipBased 2 rest
  | cs => do
    let (negative, rest) := readSign cs
    let (ds, rest) ← readWhole rest
    if valueOf 10 ds < Nat.pow 2 63 + negative.toNat then some rest else none

/-- A point with digits behind it. -/
def readFraction : List Char → Option (List Char × List Char)
  | '.' :: rest => readDigits 10 rest
  | _ => none

/-- The value of an exponent, which has a letter in front. -/
def readExponent : List Char → Option (Int × List Char)
  | c :: rest =>
    if c = 'e' ∨ c = 'E' then
      let (negative, rest) := readSign rest
      (readDigits 10 rest).map fun (ds, rest) =>
        (if negative then - (valueOf 10 ds : Int) else valueOf 10 ds, rest)
    else none
  | [] => none

/-- The text behind a floating point number: infinity, the number that is none, or digits with a
point or an exponent. One that rounds to infinity is refused unless it is negative. -/
def skipFloat (cs : List Char) : Option (List Char) :=
  let (negative, cs) := readSign cs
  match cs with
  | 'i' :: 'n' :: 'f' :: rest => some rest
  | 'n' :: 'a' :: 'n' :: rest => some rest
  | cs => do
    let (whole, rest) ← readWhole cs
    let fraction := readFraction rest
    let (digits, rest) := fraction.getD ([], rest)
    let exponent := readExponent rest
    let (power, rest) := exponent.getD (0, rest)
    let number : Decimal := ⟨whole ++ digits, power - digits.length⟩
    if (fraction.isSome ∨ exponent.isSome) ∧ (negative ∨ number.isFinite) then some rest
    else none

/-! ### Dates and times -/

/-- A number of so many digits, which must lie between two bounds. -/
def readField (count low high : Nat) (cs : List Char) : Option (Nat × List Char) :=
  let ds := cs.take count
  let n := Text.digitsValue ds
  if ds.length = count ∧ ds.all Char.isDigit ∧ low ≤ n ∧ n ≤ high then some (n, cs.drop count)
  else none

/-- Whether a year has a day more in February. -/
def isLeapYear (year : Nat) : Bool := year % 4 = 0 ∧ (year % 100 ≠ 0 ∨ year % 400 = 0)

/-- The number of days of a month. -/
def daysOfMonth (year month : Nat) : Nat :=
  if month = 2 then if isLeapYear year then 29 else 28
  else if month ∈ [4, 6, 9, 11] then 30
  else 31

/-- The text behind a date. -/
def skipDate (cs : List Char) : Option (List Char) := do
  let (year, rest) ← readField 4 0 9999 cs
  let (month, rest) ← readField 2 1 12 (← readWord ['-'] rest)
  let (_, rest) ← readField 2 1 (daysOfMonth year month) (← readWord ['-'] rest)
  return rest

/-- The text behind a point and digits, or the whole text. -/
def skipFraction (cs : List Char) : List Char :=
  match cs with
  | '.' :: d :: rest => if d.isDigit then rest.dropWhile Char.isDigit else cs
  | cs => cs

/-- The text behind a time of day. A minute may end with a leap second. -/
def skipTime (cs : List Char) : Option (List Char) := do
  let (_, rest) ← readField 2 0 23 cs
  let (_, rest) ← readField 2 0 59 (← readWord [':'] rest)
  let (_, rest) ← readField 2 0 60 (← readWord [':'] rest)
  return skipFraction rest

/-- The text behind the offset of a time of day, or the whole text. -/
def skipOffset (cs : List Char) : List Char :=
  match cs with
  | 'Z' :: rest => rest
  | 'z' :: rest => rest
  | sign :: rest =>
    if sign = '+' ∨ sign = '-' then
      let behind := do
        let (_, rest) ← readField 2 0 23 rest
        let (_, rest) ← readField 2 0 59 (← readWord [':'] rest)
        return rest
      behind.getD cs
    else cs
  | [] => []

/-- The text behind a date, a time of day, or a date with a time of day. Only the last one may have
an offset. -/
def skipMoment (cs : List Char) : Option (List Char) :=
  match skipDate cs with
  | none => skipTime cs
  | some [] => some []
  | some (mark :: rest) =>
    if mark = 'T' ∨ mark = 't' ∨ mark = ' ' then
      match skipTime rest with
      | some rest => some (skipOffset rest)
      | none => some (mark :: rest)
    else some (mark :: rest)

/-! ### Any of them -/

/-- The text behind a number, a date or a time. What starts as a date or a time is one, and what
starts as a floating point number is no whole number. -/
def skipScalar (cs : List Char) : Option (List Char) :=
  skipMoment cs <|> skipFloat cs <|> skipInteger cs

end ResourceCompiler.Toml
