import ResourceCompiler.Json.Value
import ResourceCompiler.Text.Hex

/-!
# Writing JSON

Two forms: a compact one without blanks, and an indented one with an item or member on each line.

## Main definitions

* `escapeChar`, `quoted`: strings. Quotes, backslashes and the characters below the space are
  escaped, and nothing else.
* `compact`: the compact form.
* `indented`: the indented form, with two spaces for each level.
-/

namespace ResourceCompiler.Json

/-- A character as it stands in a string. -/
def escapeChar (c : Char) : List Char :=
  if c = '"' then ['\\', '"']
  else if c = '\\' then ['\\', '\\']
  else if c.toNat = 8 then ['\\', 'b']
  else if c.toNat = 12 then ['\\', 'f']
  else if c = '\n' then ['\\', 'n']
  else if c = '\r' then ['\\', 'r']
  else if c = '\t' then ['\\', 't']
  else if c.toNat < 32 then '\\' :: 'u' :: Text.hexUnit c.toNat
  else [c]

/-- A text as a string. -/
def quoted (cs : List Char) : List Char := '"' :: (cs.flatMap escapeChar ++ ['"'])

/-- A string. One that denotes no text is written as an escape for half a surrogate pair. -/
def writtenString : Option String → List Char
  | some s => quoted s.toList
  | none => '"' :: '\\' :: 'u' :: (Text.hexUnit 0xD800 ++ ['"'])

/-! ### The compact form -/

mutual

/-- A value without blanks. -/
def compact : Json → List Char
  | .null => ['n', 'u', 'l', 'l']
  | .bool true => ['t', 'r', 'u', 'e']
  | .bool false => ['f', 'a', 'l', 's', 'e']
  | .number written => written
  | .string text => writtenString text
  | .array [] => ['[', ']']
  | .array (item :: rest) => '[' :: (compact item ++ compactItems rest ++ [']'])
  | .object [] => ['\x7b', '\x7d']
  | .object ((name, value) :: rest) =>
    '\x7b' :: (writtenString name ++ ':' :: compact value ++ compactMembers rest ++ ['\x7d'])

/-- The items behind the first one. -/
def compactItems : List Json → List Char
  | [] => []
  | item :: rest => ',' :: (compact item ++ compactItems rest)

/-- The members behind the first one. -/
def compactMembers : List (Option String × Json) → List Char
  | [] => []
  | (name, value) :: rest =>
    ',' :: (writtenString name ++ ':' :: compact value ++ compactMembers rest)

end

/-! ### The indented form -/

/-- The start of a line at a level. -/
def newline (level : Nat) : List Char := '\n' :: List.replicate (2 * level) ' '

mutual

/-- A value whose first line stands at a level. -/
def indented (level : Nat) : Json → List Char
  | .array [] => ['[', ']']
  | .array (item :: rest) =>
    '[' :: (newline (level + 1) ++ indented (level + 1) item ++ indentedItems (level + 1) rest
      ++ newline level ++ [']'])
  | .object [] => ['\x7b', '\x7d']
  | .object ((name, value) :: rest) =>
    '\x7b' :: (newline (level + 1) ++ writtenString name ++ ':' :: ' ' :: indented (level + 1) value
      ++ indentedMembers (level + 1) rest ++ newline level ++ ['\x7d'])
  | .null => ['n', 'u', 'l', 'l']
  | .bool true => ['t', 'r', 'u', 'e']
  | .bool false => ['f', 'a', 'l', 's', 'e']
  | .number written => written
  | .string text => writtenString text

/-- The items behind the first one, each on a line of its own. -/
def indentedItems (level : Nat) : List Json → List Char
  | [] => []
  | item :: rest => ',' :: (newline level ++ indented level item ++ indentedItems level rest)

/-- The members behind the first one, each on a line of its own. -/
def indentedMembers (level : Nat) : List (Option String × Json) → List Char
  | [] => []
  | (name, value) :: rest =>
    ',' :: (newline level ++ writtenString name ++ ':' :: ' ' :: indented level value
      ++ indentedMembers level rest)

end

/-- A value as the text of a file: indented, with a line feed at the end. -/
def document (j : Json) : String := String.ofList (indented 0 j ++ ['\n'])

end ResourceCompiler.Json
