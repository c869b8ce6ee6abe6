/-!
# TOML values

A document is a table. Tables are put together from statements: headers open a table or a new
element of an array of tables, and assignments give a value to a key below the open one. Where a
table comes from decides who may still add to it.

Numbers, dates and times have no values of their own, since no setting takes one.

## Main definitions

* `Toml`: the values.
* `Toml.openTable`, `Toml.openElement`, `Toml.assign`: what the statements do to a document.
-/

namespace ResourceCompiler

/-- Where a table comes from. -/
inductive Toml.Origin where
  /-- A header of its own. -/
  | header
  /-- The way to the table of another header. -/
  | implied
  /-- The way to a dotted key. -/
  | dotted
  /-- A value between braces. -/
  | braces
deriving DecidableEq

/-- A TOML value. -/
inductive Toml where
  | string (text : String)
  | boolean (value : Bool)
  /-- A number, a date or a time. -/
  | other
  | array (items : List Toml)
  | table (origin : Toml.Origin) (members : List (String × Toml))
  /-- The elements that headers with two brackets have opened. -/
  | elements (elements : List (List (String × Toml)))

namespace Toml

/-- Keys with their values. -/
abbrev Members := List (String × Toml)

/-- The value of a key. -/
def find? (key : String) (members : Members) : Option Toml := members.lookup key

/-- The members with another value for a key that is there. -/
def replace (key : String) (value : Toml) (members : Members) : Members :=
  members.map fun m => if m.1 = key then (key, value) else m

/-- Changes the table that the keys of a header lead to. Missing tables are made on the way; of an
array of tables the last element is meant. -/
def alter (f : Members → Option Members) : List String → Members → Option Members
  | [], members => f members
  | key :: path, members =>
    match find? key members with
    | none => (alter f path []).map fun sub => members ++ [(key, .table .implied sub)]
    | some (.table origin sub) =>
      if origin = .braces then none
      else (alter f path sub).map fun sub => replace key (.table origin sub) members
    | some (.elements es) =>
      match es.reverse with
      | [] => none
      | last :: before =>
        (alter f path last).map fun last =>
          replace key (.elements (before.reverse ++ [last])) members
    | some _ => none

/-- Opens the table of a key, which no other header has opened. -/
def openTable (key : String) (members : Members) : Option Members :=
  match find? key members with
  | none => some (members ++ [(key, .table .header [])])
  | some (.table .implied sub) => some (replace key (.table .header sub) members)
  | some _ => none

/-- Opens a new element of the array of tables of a key. -/
def openElement (key : String) (members : Members) : Option Members :=
  match find? key members with
  | none => some (members ++ [(key, .elements [[]])])
  | some (.elements es) => some (replace key (.elements (es ++ [[]])) members)
  | some _ => none

/-- Gives a value to a dotted key, which has none yet. The tables on the way are those of other
dotted keys, or are passed on the way to one. -/
def assign (value : Toml) : List String → Members → Option Members
  | [], _ => none
  | [key], members =>
    match find? key members with
    | none => some (members ++ [(key, value)])
    | some _ => none
  | key :: path, members =>
    match find? key members with
    | none => (assign value path []).map fun sub => members ++ [(key, .table .dotted sub)]
    | some (.table .dotted sub) =>
      (assign value path sub).map fun sub => replace key (.table .dotted sub) members
    | some (.table .implied sub) =>
      if path.length = 1 then none
      else (assign value path sub).map fun sub => replace key (.table .implied sub) members
    | some _ => none

end Toml

end ResourceCompiler
