import ResourceCompiler.Json.Value
import ResourceCompiler.Text.Hex

/-!
# Reading JSON

Every reader takes the text that is left and gives what it read with the text behind it.

## Main definitions

* `skipSpace`: passes over blanks.
* `readString`: a string behind its opening quote.
* `readNumber`: a number.
* `readValue`: a value of any form.
* `read`: a text that is one value.
-/

namespace ResourceCompiler.Json

/-- The blanks of JSON. -/
def isSpace (c : Char) : Bool := c == ' ' || c == '\n' || c == '\t' || c == '\r'

/-- The text without the blanks in front. -/
def skipSpace (cs : List Char) : List Char := cs.dropWhile isSpace

/-! ### Strings -/

/-- The character that a letter behind a backslash stands for. -/
def simpleEscape? : Char → Option Char
  | '"' => some '"'
  | '\\' => some '\\'
  | '/' => some '/'
  | 'b' => some '\x08'
  | 'f' => some '\x0c'
  | 'n' => some '\n'
  | 'r' => some '\r'
  | 't' => some '\t'
  | _ => none

/-- Whether a number is the first half of a surrogate pair. -/
def isHighSurrogate (n : Nat) : Bool := 0xD800 ≤ n && n < 0xDC00

/-- Whether a number is the second half of a surrogate pair. -/
def isLowSurrogate (n : Nat) : Bool := 0xDC00 ≤ n && n < 0xE000

/-- What a string holds so far: its characters in reverse, or none once it denotes no text, and
the first half of a surrogate pair when that was the last thing read. -/
structure Held where
  chars : Option (List Char)
  half : Option Nat

namespace Held

/-- A string with nothing read yet. -/
def start : Held := ⟨some [], none⟩

/-- The characters in reverse, if no half of a pair is left alone. -/
def settled (held : Held) : Option (List Char) :=
  match held.half with
  | none => held.chars
  | some _ => none

/-- One more character. -/
def push (held : Held) (c : Char) : Held := ⟨held.settled.map (c :: ·), none⟩

/-- One more unit of 16 bits. -/
def pushUnit (held : Held) (n : Nat) : Held :=
  if isHighSurrogate n then ⟨held.settled, some n⟩
  else if isLowSurrogate n then
    match held.half with
    | some h =>
      ⟨held.chars.map (Char.ofNat (0x10000 + (h - 0xD800) * 1024 + (n - 0xDC00)) :: ·), none⟩
    | none => ⟨none, none⟩
  else held.push (Char.ofNat n)

/-- The text, if the string denotes one. -/
def text (held : Held) : Option String := held.settled.map fun cs => String.ofList cs.reverse

end Held

/-- The rest of a string behind its opening quote. Half a surrogate pair alone makes the string
denote no text; a raw control character or an unknown escape makes it no string. -/
def readStringFrom (held : Held) : List Char → Option (Held × List Char)
  | [] => none
  | '"' :: rest => some (held, rest)
  | '\\' :: 'u' :: a :: b :: c :: d :: rest =>
    match Text.unitOfHex? a b c d with
    | none => none
    | some n => readStringFrom (held.pushUnit n) rest
  | '\\' :: c :: rest =>
    match simpleEscape? c with
    | none => none
    | some e => readStringFrom (held.push e) rest
  | c :: rest => if c.toNat < 32 ∨ c = '\\' then none else readStringFrom (held.push c) rest

/-- A string behind its opening quote. -/
def readString (cs : List Char) : Option (Option String × List Char) :=
  (readStringFrom .start cs).map fun (held, rest) => (held.text, rest)

/-! ### Numbers -/

/-- One digit or more. -/
def readDigits (cs : List Char) : Option (List Char × List Char) :=
  match cs.takeWhile Char.isDigit with
  | [] => none
  | ds => some (ds, cs.dropWhile Char.isDigit)

/-- The digits in front of the point: a zero alone, or digits that do not start with one. -/
def readWhole : List Char → Option (List Char × List Char)
  | '0' :: rest => if (rest.head?.map Char.isDigit).getD false then none else some (['0'], rest)
  | cs => readDigits cs

/-- A point with digits behind it, or nothing. -/
def readFraction : List Char → Option (List Char × List Char)
  | '.' :: rest => (readDigits rest).map fun (ds, rest) => ('.' :: ds, rest)
  | cs => some ([], cs)

/-- An exponent with an optional sign, or nothing. -/
def readExponent : List Char → Option (List Char × List Char)
  | c :: rest =>
    if c = 'e' ∨ c = 'E' then
      match rest with
      | s :: more =>
        if s = '+' ∨ s = '-' then (readDigits more).map fun (ds, rest) => (c :: s :: ds, rest)
        else (readDigits rest).map fun (ds, rest) => (c :: ds, rest)
      | [] => none
    else some ([], c :: rest)
  | [] => some ([], [])

/-- A number without sign. -/
def readUnsigned (cs : List Char) : Option (List Char × List Char) := do
  let (whole, rest) ← readWhole cs
  let (fraction, rest) ← readFraction rest
  let (exponent, rest) ← readExponent rest
  return (whole ++ fraction ++ exponent, rest)

/-- A number. -/
def readNumber : List Char → Option (List Char × List Char)
  | '-' :: rest => (readUnsigned rest).map fun (n, rest) => ('-' :: n, rest)
  | cs => readUnsigned cs

/-! ### Values -/

/-- The text behind a word. -/
def readWord : List Char → List Char → Option (List Char)
  | [], cs => some cs
  | w :: word, c :: cs => if w = c then readWord word cs else none
  | _ :: _, [] => none

mutual

/-- A value, blanks in front of it included. Each opened bracket uses up one unit of fuel. -/
def readValue : Nat → List Char → Option (Json × List Char)
  | 0, _ => none
  | fuel + 1, cs =>
    match skipSpace cs with
    | 'n' :: rest => (readWord ['u', 'l', 'l'] rest).map fun rest => (.null, rest)
    | 't' :: rest => (readWord ['r', 'u', 'e'] rest).map fun rest => (.bool true, rest)
    | 'f' :: rest => (readWord ['a', 'l', 's', 'e'] rest).map fun rest => (.bool false, rest)
    | '"' :: rest => (readString rest).map fun (s, rest) => (.string s, rest)
    | '[' :: rest =>
      match skipSpace rest with
      | ']' :: rest => some (.array [], rest)
      | rest => (readItems fuel rest).map fun (items, rest) => (.array items, rest)
    | '\x7b' :: rest =>
      match skipSpace rest with
      | '\x7d' :: rest => some (.object [], rest)
      | rest => (readMembers fuel rest).map fun (members, rest) => (.object members, rest)
    | rest => (readNumber rest).map fun (n, rest) => (.number n, rest)

/-- The items of an array up to its closing bracket, at least one. -/
def readItems : Nat → List Char → Option (List Json × List Char)
  | 0, _ => none
  | fuel + 1, cs =>
    match readValue fuel cs with
    | none => none
    | some (item, rest) =>
      match skipSpace rest with
      | ']' :: rest => some ([item], rest)
      | ',' :: rest => (readItems fuel rest).map fun (items, rest) => (item :: items, rest)
      | _ => none

/-- The members of an object up to its closing brace, at least one. -/
def readMembers : Nat → List Char → Option (List (Option String × Json) × List Char)
  | 0, _ => none
  | fuel + 1, cs =>
    match skipSpace cs with
    | '"' :: rest =>
      match readString rest with
      | none => none
      | some (name, rest) =>
        match skipSpace rest with
        | ':' :: rest =>
          match readValue fuel rest with
          | none => none
          | some (value, rest) =>
            match skipSpace rest with
            | '\x7d' :: rest => some ([(name, value)], rest)
            | ',' :: rest =>
              (readMembers fuel rest).map fun (members, rest) => ((name, value) :: members, rest)
            | _ => none
        | _ => none
    | _ => none

end

/-- A text that is one value, with blanks around it. The fuel is enough, since every step reads a
character. -/
def read (s : String) : Option Json :=
  let cs := s.toList
  match readValue (2 * cs.length + 1) cs with
  | some (value, rest) => if skipSpace rest = [] then some value else none
  | none => none

end ResourceCompiler.Json
