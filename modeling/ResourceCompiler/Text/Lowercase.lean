import ResourceCompiler.Text.Lowercase.Table

/-!
# Lower case

The full mapping of Unicode to lower case, which depends on context for one character: a capital
sigma at the end of a word becomes a final sigma.

## Main definitions

* `lowerChar`: the lower case form of a character on its own.
* `endsWord`: whether a sigma between two texts stands at the end of a word.
* `lowered`, `lowercase`: a text in lower case.

## Main statements

* `lowerChar_of_ascii`: on ASCII the mapping is that of the alphabet.
-/

namespace ResourceCompiler.Text

/-- Whether a number lies in one of the ranges. -/
def inRanges (ranges : List (Nat × Nat)) (n : Nat) : Bool :=
  ranges.any fun (first, last) => first ≤ n && n ≤ last

/-- The distance to the lower case form in a table of runs, zero when there is none. -/
def lowerDistance : List (Nat × Nat × Nat × Int) → Nat → Int
  | [], _ => 0
  | (first, last, step, distance) :: rest, n =>
    if first ≤ n ∧ n ≤ last ∧ (n - first) % step = 0 then distance else lowerDistance rest n

/-- The lower case form of a character on its own. Only a capital I with a dot has a form of two
characters, an i followed by the combining dot. -/
def lowerChar (c : Char) : List Char :=
  if c.toNat < 128 then [c.toLower]
  else if c.toNat = 0x130 then ['i', Char.ofNat 0x307]
  else [Char.ofNat (Int.toNat (c.toNat + lowerDistance lowerRuns c.toNat))]

theorem lowerChar_of_ascii {c : Char} (h : c.toNat < 128) : lowerChar c = [c.toLower] := by
  simp [lowerChar, h]

/-- Whether the first character that counts, after those passed over, is cased. -/
def meetsCased (cs : List Char) : Bool :=
  match cs.dropWhile fun c => inRanges caseIgnorableRanges c.toNat with
  | [] => false
  | c :: _ => inRanges casedRanges c.toNat

/-- Whether a sigma between the text `before`, read backwards, and the text `after` is the last
letter of a word. -/
def endsWord (before after : List Char) : Bool :=
  meetsCased before && !meetsCased after

/-- The lower case of the rest of a text, whose characters so far are given in reverse. -/
def loweredAfter (before : List Char) : List Char → List Char
  | [] => []
  | c :: rest =>
    let low := if c.toNat = 0x3A3 ∧ endsWord before rest then [Char.ofNat 0x3C2] else lowerChar c
    low ++ loweredAfter (c :: before) rest

/-- A text in lower case. -/
def lowered (cs : List Char) : List Char := loweredAfter [] cs

/-- `lowered` on strings. -/
def lowercase (s : String) : String := String.ofList (lowered s.toList)

end ResourceCompiler.Text
