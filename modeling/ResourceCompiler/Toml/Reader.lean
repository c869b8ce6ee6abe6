import ResourceCompiler.Toml.Scalar
import ResourceCompiler.Toml.Value

/-!
# Reading TOML

Every reader takes the text that is left and gives what it read with the text behind it.

## Main definitions

* `Toml.readString`: a string of any form.
* `Toml.readKey`: a dotted key.
* `Toml.readValue`: a value.
* `Toml.read`: a document.
-/

namespace ResourceCompiler.Toml

/-- The blanks inside a line. -/
def isSpace (c : Char) : Bool := c == ' ' || c == '\t'

/-- The text without the blanks in front. -/
def skipSpace (cs : List Char) : List Char := cs.dropWhile isSpace

/-- The text behind a line break, if it starts with one. -/
def lineBreak? : List Char → Option (List Char)
  | '\n' :: rest => some rest
  | '\r' :: '\n' :: rest => some rest
  | _ => none

/-- Whether a character may stand in a comment or between quotes on one line. -/
def isPrintable (c : Char) : Bool := c == '\t' || (0x20 ≤ c.toNat && c.toNat != 0x7F)

/-- The text without a comment in front. -/
def skipComment : List Char → List Char
  | '#' :: rest => rest.dropWhile isPrintable
  | cs => cs

/-- The text behind the end of a line, which may hold blanks and a comment. -/
def endLine (cs : List Char) : Option (List Char) :=
  match skipComment (skipSpace cs) with
  | [] => some []
  | rest => lineBreak? rest

/-- The text without blanks, line breaks and comments in front. The fuel bounds their number. -/
def skipLines : Nat → List Char → List Char
  | 0, cs => cs
  | fuel + 1, cs =>
    let rest := skipComment (skipSpace cs)
    match lineBreak? rest with
    | some rest => skipLines fuel rest
    | none => rest

/-! ### Strings -/

/-- The character of a number, which must not be half a surrogate pair. -/
def scalar? (n : Nat) : Option Char := if n.isValidChar then some (Char.ofNat n) else none

/-- What a backslash with the given text behind it stands for. -/
def readEscape : List Char → Option (Char × List Char)
  | 'b' :: rest => some ('\x08', rest)
  | 't' :: rest => some ('\t', rest)
  | 'n' :: rest => some ('\n', rest)
  | 'f' :: rest => some ('\x0c', rest)
  | 'r' :: rest => some ('\r', rest)
  | '"' :: rest => some ('"', rest)
  | '\\' :: rest => some ('\\', rest)
  | 'u' :: a :: b :: c :: d :: rest => do
    return (← scalar? (← Text.unitOfHex? a b c d), rest)
  | 'U' :: a :: b :: c :: d :: e :: f :: g :: h :: rest => do
    let high ← Text.unitOfHex? a b c d
    return (← scalar? (65536 * high + (← Text.unitOfHex? e f g h)), rest)
  | _ => none

/-- The rest of a string between double quotes. -/
def readBasic : Nat → List Char → Option (List Char × List Char)
  | 0, _ => none
  | _ + 1, '"' :: rest => some ([], rest)
  | fuel + 1, '\\' :: rest => do
    let (c, rest) ← readEscape rest
    let (cs, rest) ← readBasic fuel rest
    return (c :: cs, rest)
  | fuel + 1, c :: rest => do
    if !isPrintable c then none
    let (cs, rest) ← readBasic fuel rest
    return (c :: cs, rest)
  | _ + 1, [] => none

/-- The rest of a string between single quotes. -/
def readLiteral : List Char → Option (List Char × List Char)
  | [] => none
  | '\'' :: rest => some ([], rest)
  | c :: rest => do
    if !isPrintable c then none
    let (cs, rest) ← readLiteral rest
    return (c :: cs, rest)

/-- The end of a text of several lines, when quotes stand in front: three of them close it, and one
or two more in front of these belong to it. -/
def closing? (quote : Char) (cs : List Char) : Option (List Char × List Char) :=
  let count := (cs.takeWhile (· = quote)).length
  if count < 3 then none
  else
    let inside := min count 5 - 3
    some (List.replicate inside quote, cs.drop (inside + 3))

/-- The text without blanks and line breaks in front. -/
def skipBlankLines : List Char → List Char
  | '\r' :: '\n' :: rest => skipBlankLines rest
  | c :: rest => if isSpace c || c == '\n' then skipBlankLines rest else c :: rest
  | [] => []

/-- The text behind a backslash at the end of a line, up to the next character that is no blank and
no line break. -/
def continuation? (cs : List Char) : Option (List Char) :=
  (lineBreak? (skipSpace cs)).map skipBlankLines

/-- The rest of a string of several lines between double quotes. -/
def readBasicLines : Nat → List Char → Option (List Char × List Char)
  | 0, _ => none
  | fuel + 1, cs =>
    match closing? '"' cs with
    | some ending => some ending
    | none =>
      match cs with
      | [] => none
      | '\\' :: rest =>
        match continuation? rest with
        | some rest => readBasicLines fuel rest
        | none => do
          let (c, rest) ← readEscape rest
          let (cs, rest) ← readBasicLines fuel rest
          return (c :: cs, rest)
      | c :: rest =>
        match lineBreak? (c :: rest) with
        | some rest => do
          let (cs, rest) ← readBasicLines fuel rest
          return ('\n' :: cs, rest)
        | none => do
          if !isPrintable c then none
          let (cs, rest) ← readBasicLines fuel rest
          return (c :: cs, rest)

/-- The rest of a string of several lines between single quotes. -/
def readLiteralLines : Nat → List Char → Option (List Char × List Char)
  | 0, _ => none
  | fuel + 1, cs =>
    match closing? '\'' cs with
    | some ending => some ending
    | none =>
      match cs with
      | [] => none
      | c :: rest =>
        match lineBreak? (c :: rest) with
        | some rest => do
          let (cs, rest) ← readLiteralLines fuel rest
          return ('\n' :: cs, rest)
        | none => do
          if !isPrintable c then none
          let (cs, rest) ← readLiteralLines fuel rest
          return (c :: cs, rest)

/-- The text without a line break directly behind opening quotes. -/
def skipBreak (cs : List Char) : List Char := (lineBreak? cs).getD cs

/-- A string of any form. -/
def readString (cs : List Char) : Option (String × List Char) :=
  let fuel := cs.length + 1
  let chars := match cs with
    | '"' :: '"' :: '"' :: rest => readBasicLines fuel (skipBreak rest)
    | '\'' :: '\'' :: '\'' :: rest => readLiteralLines fuel (skipBreak rest)
    | '"' :: rest => readBasic fuel rest
    | '\'' :: rest => readLiteral rest
    | _ => none
  chars.map fun (cs, rest) => (String.ofList cs, rest)

/-! ### Keys -/

/-- Whether a character may stand in a key without quotes. -/
def isBare (c : Char) : Bool := c.isAlphanum || c == '_' || c == '-'

/-- One part of a dotted key. -/
def readPart : List Char → Option (String × List Char)
  | '"' :: rest => (readBasic (rest.length + 1) rest).map fun (cs, rest) => (String.ofList cs, rest)
  | '\'' :: rest => (readLiteral rest).map fun (cs, rest) => (String.ofList cs, rest)
  | cs =>
    match cs.takeWhile isBare with
    | [] => none
    | part => some (String.ofList part, cs.dropWhile isBare)

/-- Parts divided by dots, with blanks around them. -/
def readParts : Nat → List Char → Option (List String × List Char)
  | 0, _ => none
  | fuel + 1, cs => do
    let (part, rest) ← readPart (skipSpace cs)
    match skipSpace rest with
    | '.' :: rest => do
      let (parts, rest) ← readParts fuel rest
      return (part :: parts, rest)
    | rest => return ([part], rest)

/-- The largest number of arrays and tables between braces that may be open at once, and of the
parts of a dotted key. -/
def maxDepth : Nat := 79

/-- A dotted key with blanks around it. -/
def readKey (cs : List Char) : Option (List String × List Char) := do
  let (parts, rest) ← readParts cs.length cs
  if parts.length ≤ maxDepth then some (parts, rest) else none

/-! ### Values -/

mutual

/-- A value that opens at most `room` arrays and tables between braces at once. -/
def readValue : Nat → Nat → List Char → Option (Toml × List Char)
  | 0, _, _ => none
  | fuel + 1, room, cs =>
    match cs with
    | 't' :: rest => (readWord ['r', 'u', 'e'] rest).map fun rest => (.boolean true, rest)
    | 'f' :: rest => (readWord ['a', 'l', 's', 'e'] rest).map fun rest => (.boolean false, rest)
    | '[' :: rest =>
      if room = 0 then none
      else (readItems fuel (room - 1) rest).map fun (items, rest) => (.array items, rest)
    | '\x7b' :: rest =>
      if room = 0 then none
      else match skipSpace rest with
        | '\x7d' :: rest => some (.table .braces [], rest)
        | rest =>
          (readMembers fuel (room - 1) [] rest).map fun (ms, rest) => (.table .braces ms, rest)
    | cs =>
      match readString cs with
      | some (s, rest) => some (.string s, rest)
      | none => (skipScalar cs).map fun rest => (.other, rest)

/-- The items of an array up to its closing bracket. -/
def readItems : Nat → Nat → List Char → Option (List Toml × List Char)
  | 0, _, _ => none
  | fuel + 1, room, cs =>
    match skipLines cs.length cs with
    | ']' :: rest => some ([], rest)
    | rest => do
      let (item, rest) ← readValue fuel room rest
      match skipLines rest.length rest with
      | ']' :: rest => return ([item], rest)
      | ',' :: rest => do
        let (items, rest) ← readItems fuel room rest
        return (item :: items, rest)
      | _ => none

/-- The members of a table between braces up to the closing brace, added to those read before. -/
def readMembers : Nat → Nat → Members → List Char → Option (Members × List Char)
  | 0, _, _, _ => none
  | fuel + 1, room, members, cs => do
    let (key, rest) ← readKey cs
    match rest with
    | '=' :: rest => do
      let (value, rest) ← readValue fuel room (skipSpace rest)
      let members ← assign value key members
      match skipSpace rest with
      | '\x7d' :: rest => return (members, rest)
      | ',' :: rest => readMembers fuel room members rest
      | _ => none
    | _ => none

end

/-! ### Documents -/

/-- A document as far as it has been read: its members and the keys of the open table. -/
structure Document where
  members : Members := []
  open_ : List String := []

/-- Changes the table that all but the last key lead to, by the last one. -/
def atLast (f : String → Members → Option Members) (path : List String) (members : Members) :
    Option Members :=
  match path.getLast? with
  | none => none
  | some key => alter (f key) path.dropLast members

/-- One statement and the end of its line. -/
def readStatement (document : Document) (cs : List Char) : Option (Document × List Char) :=
  match skipSpace cs with
  | '[' :: '[' :: rest => do
    let (path, rest) ← readKey rest
    match rest with
    | ']' :: ']' :: rest => do
      let members ← atLast openElement path document.members
      return (⟨members, path⟩, ← endLine rest)
    | _ => none
  | '[' :: rest => do
    let (path, rest) ← readKey rest
    match rest with
    | ']' :: rest => do
      let members ← atLast openTable path document.members
      return (⟨members, path⟩, ← endLine rest)
    | _ => none
  | rest => do
    let (key, rest) ← readKey rest
    match rest with
    | '=' :: rest => do
      let value := skipSpace rest
      let (value, rest) ← readValue (2 * value.length + 1) maxDepth value
      let members ← alter (assign value key) document.open_ document.members
      return ({ document with members }, ← endLine rest)
    | _ => none

/-- The statements of a document, with blank lines between them. -/
def readStatements : Nat → Document → List Char → Option Document
  | 0, _, _ => none
  | fuel + 1, document, cs =>
    match skipLines cs.length cs with
    | [] => some document
    | rest => do
      let (document, rest) ← readStatement document rest
      readStatements fuel document rest

/-- The members of a document. A mark for the order of bytes in front does not count. -/
def read (s : String) : Option Members :=
  let cs := match s.toList with
    | '\uFEFF' :: rest => rest
    | cs => cs
  (readStatements (cs.length + 1) {} cs).map Document.members

end ResourceCompiler.Toml
