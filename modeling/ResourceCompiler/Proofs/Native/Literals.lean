import Mathlib.Data.List.Basic
import ResourceCompiler.Native.AppleTable
import ResourceCompiler.Proofs.Characters

/-!
# Literals read back

A table of strings of Apple platforms has a line for each string, with the key and the text between
quotes. The lines are the parts between line feeds, so a text keeps to its line only if no line feed
and no quote of it is left bare.

* `readLiteral`, `readLine`, `readLines`: reads a literal, a line, and all lines of a table.
* `readLiteral_escapeLiteral`: a literal is read up to its own end, whatever follows.
* `readTable_join`: a table reads as the keys and texts that it was written for.
-/

namespace ResourceCompiler.Native.Apple

/-! ### A reader of tables -/

/-- The character that an escape stands for, by the character behind the backslash. -/
def escaped? (c : Char) : Option Char :=
  if c = '\\' ∨ c = '"' then some c
  else if c = 'n' then some '\n'
  else if c = 't' then some '\t'
  else none

/-- The text of a literal behind its opening quote, and what follows its closing one. -/
def readLiteral : List Char → Option (List Char × List Char)
  | [] => none
  | ['\\'] => none
  | '\\' :: c :: rest =>
    (escaped? c).bind fun c => (readLiteral rest).map fun (text, rest) => (c :: text, rest)
  | c :: rest =>
    if c = '"' then some ([], rest)
    else (readLiteral rest).map fun (text, rest) => (c :: text, rest)

/-- The key and the text of a line: two literals with an equals sign between them, and a semicolon
behind them. -/
def readLine : List Char → Option (String × String)
  | '"' :: cs =>
    match readLiteral cs with
    | some (key, ' ' :: '=' :: ' ' :: '"' :: cs) =>
      match readLiteral cs with
      | some (text, [';']) => some (String.ofList key, String.ofList text)
      | _ => none
    | _ => none
  | _ => none

/-- The keys and texts of a table, line by line. The last line ends like the others. -/
def readLines (cs : List Char) : Option (List (String × String)) :=
  let lines := Text.fields '\n' cs
  if lines.getLast? = some [] then lines.dropLast.mapM readLine else none

/-- The keys and texts of a table. -/
def readTable (s : String) : Option (List (String × String)) := readLines s.toList

/-! ### Literals -/

/-- An escape is read as the character that it was written for. -/
theorem readLiteral_escapeChar (c : Char) (cs : List Char) :
    readLiteral (escapeChar c ++ cs) =
      (readLiteral cs).map fun (text, rest) => (c :: text, rest) := by
  unfold escapeChar
  split
  · rename_i hmark
    show (escaped? c).bind _ = _
    rw [escaped?, if_pos hmark]
    rfl
  split
  · rename_i hbreak
    subst hbreak
    rfl
  split
  · rename_i htab
    subst htab
    rfl
  · rename_i hmark _ _
    rw [not_or] at hmark
    rw [List.singleton_append, readLiteral, if_neg hmark.2]
    -- the rules for escapes do not apply
    · rintro rfl
      exact fun _ => hmark.1 rfl
    · rintro _ _ rfl
      exact fun _ => hmark.1 rfl

/-- **A literal is read up to its own end**, whatever follows. -/
theorem readLiteral_escapeLiteral (cs rest : List Char) :
    readLiteral (escapeLiteral cs ++ '"' :: rest) = some (cs, rest) := by
  induction cs with
  | nil => rfl
  | cons c cs ih =>
    have hcons : escapeLiteral (c :: cs) = escapeChar c ++ escapeLiteral cs := List.flatMap_cons
    rw [hcons, List.append_assoc, readLiteral_escapeChar, ih]
    rfl

/-- An escape stays on its line. -/
theorem break_not_mem_escapeLiteral (cs : List Char) : '\n' ∉ escapeLiteral cs := by
  have hchar (c : Char) : '\n' ∉ escapeChar c := by
    unfold escapeChar
    split
    · rename_i hmark
      rcases hmark with rfl | rfl
      · decide
      · decide
    split
    · decide
    split
    · decide
    · rename_i hbreak _
      exact fun hmem => hbreak (List.mem_singleton.1 hmem).symm
  rw [escapeLiteral, List.mem_flatMap]
  rintro ⟨c, -, hc⟩
  exact hchar c hc

/-- A key is written as it is. -/
theorem escapeLiteral_key (k : Key) : escapeLiteral k.text.toList = k.text.toList := by
  have hplain : ['\\', '"', '\n', '\t'].all (!isIdentifierChar ·) = true := by decide
  have hchar : ∀ c ∈ k.text.toList, escapeChar c = [c] := by
    intro c hc
    have hne : ∀ d ∈ ['\\', '"', '\n', '\t'], c ≠ d := by
      rintro d hd rfl
      have hmark := List.all_eq_true.1 hplain c hd
      rw [k.isIdentifierChar_of_mem hc] at hmark
      cases hmark
    simp only [List.forall_mem_cons] at hne
    rw [escapeChar, if_neg (not_or.2 ⟨hne.1, hne.2.1⟩), if_neg hne.2.2.1, if_neg hne.2.2.2.1]
  rw [escapeLiteral, List.flatMap_congr hchar, List.flatMap_singleton']

/-! ### Lines -/

/-- A line without the break at its end. -/
def lineOf (e : Key × String) : List Char :=
  '"' :: (escapeLiteral e.1.text.toList ++ '"' :: ' ' :: '=' :: ' ' :: '"' ::
    (escapeLiteral e.2.toList ++ ['"', ';']))

theorem toList_stringLine (e : Key × String) : (stringLine e).toList = lineOf e ++ ['\n'] := by
  have hopen : "\"".toList = ['"'] := by decide +kernel
  have hbetween : "\" = \"".toList = ['"', ' ', '=', ' ', '"'] := by decide +kernel
  have hclose : "\";\n".toList = ['"', ';', '\n'] := by decide +kernel
  have hescape : (escape e.2).toList = escapeLiteral e.2.toList := String.toList_ofList
  rw [stringLine, String.toList_append, String.toList_append, String.toList_append,
    String.toList_append, hopen, hbetween, hclose, hescape, lineOf, escapeLiteral_key]
  simp only [List.append_assoc, List.cons_append, List.nil_append]

theorem readLine_lineOf (e : Key × String) : readLine (lineOf e) = some (e.1.text, e.2) := by
  rw [lineOf, readLine, readLiteral_escapeLiteral]
  simp only [readLiteral_escapeLiteral, String.ofList_toList]

theorem break_not_mem_lineOf (e : Key × String) : '\n' ∉ lineOf e := by
  have hkey := break_not_mem_escapeLiteral e.1.text.toList
  have htext := break_not_mem_escapeLiteral e.2.toList
  simp [lineOf, hkey, htext]

/-! ### Tables -/

/-- The lines of a table are those that it was written with. -/
theorem fields_flatMap_lineOf (es : List (Key × String)) :
    Text.fields '\n' (es.flatMap fun e => lineOf e ++ ['\n']) = es.map lineOf ++ [[]] := by
  induction es with
  | nil => rfl
  | cons e es ih =>
    rw [List.flatMap_cons, List.append_assoc, List.singleton_append,
      Text.fields_append_sep (break_not_mem_lineOf e), ih]
    rfl

theorem readLines_flatMap_lineOf (es : List (Key × String)) :
    readLines (es.flatMap fun e => lineOf e ++ ['\n']) =
      some (es.map fun e => (e.1.text, e.2)) := by
  rw [readLines, fields_flatMap_lineOf, List.getLast?_concat, if_pos rfl, List.dropLast_concat]
  induction es with
  | nil => rfl
  | cons e es ih =>
    rw [List.map_cons, List.mapM_cons, readLine_lineOf, ih]
    rfl

/-- **A table reads as the keys and texts that it was written for**, in order and nothing else. -/
theorem readTable_join (es : List (Key × String)) :
    readTable (String.join (es.map stringLine)) = some (es.map fun e => (e.1.text, e.2)) := by
  have htext : (String.join (es.map stringLine)).toList =
      es.flatMap fun e => lineOf e ++ ['\n'] := by
    rw [String.toList_join, List.flatMap_map]
    exact List.flatMap_congr fun e _ => toList_stringLine e
  rw [readTable, htext, readLines_flatMap_lineOf]

end ResourceCompiler.Native.Apple
