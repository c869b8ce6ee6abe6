import ResourceCompiler.Resource.Invalid

/-!
# Image scales

An image comes as a vector drawing or at scales such as `1x`, `1.5x`, `2x`.

## Main definitions

* `Scale`: the vector drawing, or a scale given by the text of its number.
* `Scale.text`, `Scale.ofText?`: the written form.
* `Scale.fileSuffix`: the mark of the scale in a file name.
-/

namespace ResourceCompiler

/-- Digits with at most one dot, which neither starts nor ends the text. -/
def isScaleNumber (cs : List Char) : Bool :=
  !cs.isEmpty && cs.head? != some '.' && cs.getLast? != some '.'
    && cs.all (fun c => c.isDigit || c == '.') && cs.count '.' ≤ 1

/-- How large an image is drawn. -/
inductive Scale where
  /-- A drawing that fits every size. -/
  | vector
  /-- A raster image, by the number of its scale as it was written. -/
  | raster (number : String) (wellFormed : isScaleNumber number.toList = true)
deriving DecidableEq

namespace Scale

/-- The scale of a raster image that carries no mark. -/
def unmarked : Scale := .raster "1" (by decide)

/-- The written form: `vector`, or the number with an `x`. -/
def text : Scale → String
  | vector => "vector"
  | raster number _ => number ++ "x"

instance : ToString Scale := ⟨text⟩

/-- The number in front of a final `x`. -/
def number? (cs : List Char) : Option (List Char) :=
  match cs.reverse with
  | 'x' :: rest => some rest.reverse
  | _ => none

/-- Reads a scale. -/
def ofText? (s : String) : Except InvalidValue Scale :=
  if s = "vector" then .ok vector
  else match number? s.toList with
    | some number =>
      if h : isScaleNumber (String.ofList number).toList = true
      then .ok (raster (String.ofList number) h)
      else .error (.scale s)
    | none => .error (.scale s)

/-- Whether the scale is that of vector drawings. -/
def isVector : Scale → Bool
  | vector => true
  | raster .. => false

/-- What marks the scale in a file name: nothing for vector drawings and for `1x`, otherwise an at
sign and the written form. -/
def fileSuffix (s : Scale) : String :=
  if s = vector ∨ s = unmarked then "" else "@" ++ s.text

/-! ### Reading the written form -/

theorem number?_append_x (cs : List Char) : number? (cs ++ ['x']) = some cs := by
  simp [number?]

theorem eq_append_of_number?_eq_some {cs number : List Char} (h : number? cs = some number) :
    cs = number ++ ['x'] := by
  unfold number? at h
  split at h
  · rename_i rest hr
    cases h
    rw [← List.reverse_reverse cs, hr, List.reverse_cons]
  · cases h

theorem text_raster_ne_vector {number : String} {h : isScaleNumber number.toList = true} :
    (raster number h).text ≠ "vector" := by
  intro he
  have := congrArg (fun s : String => s.toList.getLast?) he
  simp [text] at this

/-- The written form of a scale reads as that scale. -/
theorem ofText?_text (s : Scale) : ofText? s.text = .ok s := by
  cases s with
  | vector => rfl
  | raster number h =>
    rw [ofText?, if_neg text_raster_ne_vector]
    simp [text, number?_append_x, h]

/-- The characters of written forms. -/
theorem of_mem_text {s : Scale} {c : Char} (hc : c ∈ s.text.toList) :
    c.isDigit = true ∨ c = '.' ∨ c ∈ "vectorx".toList := by
  cases s with
  | vector => exact .inr (.inr (List.mem_append_left ['x'] hc))
  | raster number h =>
    simp only [isScaleNumber, Bool.and_eq_true, List.all_eq_true, Bool.or_eq_true, beq_iff_eq] at h
    rw [text, String.toList_append, List.mem_append] at hc
    rcases hc with hc | hc
    · exact (h.1.2 c hc).imp_right .inl
    · exact .inr (.inr (List.mem_append_right "vector".toList hc))

/-- A text that reads as a scale is the written form of that scale. -/
theorem text_of_ofText?_eq_ok {t : String} {s : Scale} (h : ofText? t = .ok s) : s.text = t := by
  unfold ofText? at h
  split at h
  · rename_i ht
    cases h; exact ht.symm
  · split at h
    · rename_i number hn
      split at h
      · cases h
        apply String.toList_injective
        simp [text, eq_append_of_number?_eq_some hn]
      · cases h
    · cases h

end Scale

end ResourceCompiler
