import ResourceCompiler.Json.Number

/-!
# JSON values

The values of JSON, as they are read and written. The members of an object keep their order, and
nothing keeps two members from having one name.

## Main definitions

* `Json`: the values.
* `Json.text`, `Json.record`: the strings and objects that are written.
* `Json.readable`: whether a value can be taken in whole.
-/

namespace ResourceCompiler

/-- A JSON value. A string can hold an escape for half a surrogate pair alone, and then denotes no
text; such a string is `none`. A number is kept as it is written. -/
inductive Json where
  | null
  | bool (value : Bool)
  | number (written : List Char)
  | string (text : Option String)
  | array (items : List Json)
  | object (members : List (Option String × Json))
deriving Inhabited

namespace Json

/-- The string that denotes a text. -/
def text (s : String) : Json := .string (some s)

/-- The object with the given members. -/
def record (members : List (String × Json)) : Json :=
  .object (members.map fun m => (some m.1, m.2))

/-- The number that a natural number is written as. -/
def natural (n : Nat) : Json := .number (Nat.toDigits 10 n)

/-! ### Taking a value in -/

/-- The largest number of arrays and objects that may be open at once. -/
def maxDepth : Nat := 127

mutual

/-- Whether a value can be taken in whole: it opens at most `room` arrays and objects at once, its
strings denote texts, and its numbers are finite. -/
def readable (room : Nat) : Json → Bool
  | .null => true
  | .bool _ => true
  | .number written => isFinite written
  | .string text => text.isSome
  | .array items => 0 < room && readableItems (room - 1) items
  | .object members => 0 < room && readableMembers (room - 1) members

/-- Whether all items can be taken in. -/
def readableItems (room : Nat) : List Json → Bool
  | [] => true
  | item :: rest => readable room item && readableItems room rest

/-- Whether all members can be taken in. -/
def readableMembers (room : Nat) : List (Option String × Json) → Bool
  | [] => true
  | (name, value) :: rest => name.isSome && readable room value && readableMembers room rest

end

end Json

end ResourceCompiler
