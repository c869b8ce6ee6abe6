import ResourceCompiler.Text.Hex

/-!
# References in XML text

## Main definitions

* `Xml.escape`: a text with references for the characters that are markup.
* `Xml.unescape`: a text with its references resolved. The five named references and numbers are
  known; every ampersand has to start one.

## Main statements

* `unescape_escape`: an escaped text reads back.
-/

namespace ResourceCompiler.Xml

/-- A character as it stands in text and in attribute values. -/
def escapeChar : Char → List Char
  | '&' => "&amp;".toList
  | '<' => "&lt;".toList
  | '>' => "&gt;".toList
  | '"' => "&quot;".toList
  | c => [c]

/-- A text with references for the characters that are markup. -/
def escape (cs : List Char) : List Char := cs.flatMap escapeChar

/-- The value of a sequence of digits. -/
def number? (base : Nat) (digits : List Char) : Option Nat :=
  if digits = [] then none
  else digits.foldlM (fun n d =>
    match Text.hexValue? d with
    | some v => if v < base then some (base * n + v) else none
    | none => none) 0

/-- The character with a given number, which must be neither zero nor half a surrogate pair. -/
def numbered? (digits : List Char) : Option Char := do
  let n ← match digits with
    | 'x' :: digits => number? 16 digits
    | digits => number? 10 digits
  if n ≠ 0 ∧ n.isValidChar then some (Char.ofNat n) else none

/-- The character that a reference stands for. -/
def referenced? (name : List Char) : Option Char :=
  match name with
  | '#' :: digits => numbered? digits
  | name =>
    if name = "lt".toList then some '<'
    else if name = "gt".toList then some '>'
    else if name = "amp".toList then some '&'
    else if name = "apos".toList then some '\''
    else if name = "quot".toList then some '"'
    else none

/-- The resolved text, where `name` holds what has been read, in reverse, of a reference that has
not ended. -/
def unescapeFrom : Option (List Char) → List Char → Option (List Char)
  | none, [] => some []
  | none, c :: rest =>
    if c = '&' then unescapeFrom (some []) rest
    else (unescapeFrom none rest).map (c :: ·)
  | some _, [] => none
  | some name, c :: rest =>
    if c = ';' then
      match referenced? name.reverse with
      | some r => (unescapeFrom none rest).map (r :: ·)
      | none => none
    else if c = '&' then none
    else unescapeFrom (some (c :: name)) rest

/-- A text with its references resolved. -/
def unescape (cs : List Char) : Option (List Char) := unescapeFrom none cs

theorem unescape_escapeChar (c : Char) (rest : List Char) :
    unescapeFrom none (escapeChar c ++ rest) = (unescapeFrom none rest).map (c :: ·) := by
  unfold escapeChar
  split
  · simp [unescapeFrom, referenced?]
  · simp [unescapeFrom, referenced?]
  · simp [unescapeFrom, referenced?]
  · simp [unescapeFrom, referenced?]
  · rename_i h _ _ _
    have hc : c ≠ '&' := fun e => h e
    simp [unescapeFrom, hc]

/-- An escaped text reads back. -/
theorem unescape_escape (cs : List Char) : unescape (escape cs) = some cs := by
  unfold unescape escape
  induction cs with
  | nil => rfl
  | cons c rest ih => rw [List.flatMap_cons, unescape_escapeChar, ih]; rfl

end ResourceCompiler.Xml
