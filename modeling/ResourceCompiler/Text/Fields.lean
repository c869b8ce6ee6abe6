/-!
# Texts divided by a separator

## Main definitions

* `fields sep cs`: the parts of `cs` between the occurrences of `sep`; there is always at least one.
* `joined sep parts`: the parts with `sep` between them.

## Main statements

* `joined_fields`: joining the fields of a text gives it back.
* `fields_joined`: parts without separator come back as they are.
-/

namespace ResourceCompiler.Text

/-- The parts of a text between the occurrences of the separator. -/
def fields (sep : Char) : List Char → List (List Char)
  | [] => [[]]
  | c :: r =>
    if c = sep then [] :: fields sep r
    else match fields sep r with
      | [] => [[c]]
      | f :: fs => (c :: f) :: fs

/-- The parts with the separator between them. -/
def joined (sep : Char) : List (List Char) → List Char
  | [] => []
  | [part] => part
  | part :: rest => part ++ sep :: joined sep rest

theorem joined_cons_of_ne_nil (sep : Char) (part : List Char) {rest : List (List Char)}
    (h : rest ≠ []) : joined sep (part :: rest) = part ++ sep :: joined sep rest := by
  cases rest with
  | nil => exact absurd rfl h
  | cons => rfl

theorem fields_ne_nil (sep : Char) (cs : List Char) : fields sep cs ≠ [] := by
  cases cs with
  | nil => simp [fields]
  | cons c r =>
    rw [fields]
    split
    · simp
    · split <;> simp

theorem fields_sep_cons (sep : Char) (r : List Char) :
    fields sep (sep :: r) = [] :: fields sep r := by
  simp [fields]

/-- A text without separator is its only field. -/
theorem fields_of_not_mem {sep : Char} {cs : List Char} (h : sep ∉ cs) : fields sep cs = [cs] := by
  induction cs with
  | nil => rfl
  | cons c r ih =>
    have hc : c ≠ sep := fun e => h (by simp [e])
    simp [fields, hc, ih fun hr => h (List.mem_cons_of_mem _ hr)]

/-- Reading stops at the first separator. -/
theorem fields_append_sep {sep : Char} {part : List Char} (h : sep ∉ part) (r : List Char) :
    fields sep (part ++ sep :: r) = part :: fields sep r := by
  induction part with
  | nil => exact fields_sep_cons sep r
  | cons c p ih =>
    have hc : c ≠ sep := fun e => h (by simp [e])
    simp [fields, hc, ih fun hp => h (List.mem_cons_of_mem _ hp)]

theorem joined_fields (sep : Char) (cs : List Char) : joined sep (fields sep cs) = cs := by
  induction cs with
  | nil => rfl
  | cons c r ih =>
    by_cases hc : c = sep
    · subst hc
      rw [fields_sep_cons, joined_cons_of_ne_nil _ _ (fields_ne_nil _ _), ih, List.nil_append]
    · rw [fields, if_neg hc]
      cases hf : fields sep r with
      | nil => exact absurd hf (fields_ne_nil sep r)
      | cons f fs =>
        rw [hf] at ih
        cases fs with
        | nil => simpa [joined] using ih
        | cons g gs => simpa [joined] using ih

theorem fields_joined {sep : Char} {parts : List (List Char)} (hne : parts ≠ [])
    (h : ∀ p ∈ parts, sep ∉ p) : fields sep (joined sep parts) = parts := by
  induction parts with
  | nil => exact absurd rfl hne
  | cons p rest ih =>
    cases rest with
    | nil => exact fields_of_not_mem (h p (by simp))
    | cons q qs =>
      rw [joined_cons_of_ne_nil _ _ (by simp), fields_append_sep (h p (by simp)),
        ih (by simp) fun x hx => h x (List.mem_cons_of_mem _ hx)]

/-- No field holds the separator. -/
theorem not_mem_of_mem_fields {sep : Char} {cs part : List Char} (h : part ∈ fields sep cs) :
    sep ∉ part := by
  induction cs generalizing part with
  | nil => simp [fields] at h; simp [h]
  | cons c r ih =>
    rw [fields] at h
    split at h
    · rcases List.mem_cons.1 h with rfl | h
      · simp
      · exact ih h
    · rename_i hc
      cases hf : fields sep r with
      | nil => exact absurd hf (fields_ne_nil sep r)
      | cons f fs =>
        rw [hf] at h ih
        rcases List.mem_cons.1 h with rfl | h
        · simpa [Ne.symm hc] using ih (List.mem_cons_self ..)
        · exact ih (List.mem_cons_of_mem _ h)

/-- `fields` on strings. -/
def splitAt (sep : Char) (s : String) : List String :=
  (fields sep s.toList).map String.ofList

end ResourceCompiler.Text
