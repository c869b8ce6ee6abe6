/-!
# Blank characters

White space in the sense of Unicode, and texts without it at their ends.

## Main definitions

* `isBlank`: the characters with the property `White_Space`.
* `trimmed`: a text without the blanks at its two ends.

## Main statements

* `isBlank_of_isWhitespace`: the blanks contain the white space of ASCII.
* `trimmed_eq_self`: a text that neither starts nor ends with a blank is left as it is.
-/

namespace ResourceCompiler.Text

/-- The characters with the Unicode property `White_Space`. -/
def isBlank (c : Char) : Bool :=
  let n := c.toNat
  (9 ≤ n && n ≤ 13) || n == 0x20 || n == 0x85 || n == 0xA0 || n == 0x1680
    || (0x2000 ≤ n && n ≤ 0x200A) || n == 0x2028 || n == 0x2029 || n == 0x202F
    || n == 0x205F || n == 0x3000

theorem isBlank_of_isWhitespace {c : Char} (h : c.isWhitespace = true) : isBlank c = true := by
  simp only [Char.isWhitespace, Bool.or_eq_true, decide_eq_true_eq] at h
  rcases h with ((rfl | rfl) | rfl) | rfl <;> rfl

/-- The text without the blanks at its two ends. -/
def trimmed (cs : List Char) : List Char :=
  ((cs.dropWhile isBlank).reverse.dropWhile isBlank).reverse

@[simp] theorem trimmed_nil : trimmed [] = [] := rfl

theorem dropWhile_isBlank_eq_self {cs : List Char} (h : ∀ c ∈ cs.head?, isBlank c = false) :
    cs.dropWhile isBlank = cs := by
  cases cs with
  | nil => rfl
  | cons c r => simp [List.dropWhile, h c (by simp)]

/-- Only blanks at an end are taken away. -/
theorem trimmed_eq_self {cs : List Char} (hfirst : ∀ c ∈ cs.head?, isBlank c = false)
    (hlast : ∀ c ∈ cs.getLast?, isBlank c = false) : trimmed cs = cs := by
  rw [trimmed, dropWhile_isBlank_eq_self hfirst, dropWhile_isBlank_eq_self, List.reverse_reverse]
  simpa using hlast

/-- `trimmed` on strings. -/
def trim (s : String) : String := String.ofList (trimmed s.toList)

@[simp] theorem toList_trim (s : String) : (trim s).toList = trimmed s.toList := by simp [trim]

end ResourceCompiler.Text
