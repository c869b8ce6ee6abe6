/-!
# Escapes in resource text

The text of strings and plurals marks some characters with a backslash. Raw line breaks can be made
part of the layout of the file, so that only escapes break lines.

## Main definitions

* `Source.EscapeError`: a backslash that marks nothing.
* `Source.resolveEscapes`: the text that a raw text stands for.

## Main statements

* `resolveEscapes_escaped`, `resolveEscapes_plain`: what a text starts with.
-/

namespace ResourceCompiler.Source

/-- A backslash that marks nothing. -/
inductive EscapeError where
  | loneBackslash
  | unknown (c : Char)
deriving DecidableEq

/-- The wording of a fault. -/
def EscapeError.message : EscapeError → String
  | .loneBackslash => "text ends with a lone backslash"
  | .unknown c => "unknown escape sequence '\\" ++ c.toString ++ "'"

/-- The character that a letter behind a backslash stands for. -/
def escaped? (c : Char) : Option Char :=
  if c = 'n' then some '\n'
  else if c = 't' then some '\t'
  else if c = '\'' ∨ c = '"' ∨ c = '\\' ∨ c = '@' ∨ c = '?' then some c
  else none

/-- A raw character outside escapes. With strict line breaks a carriage return is left out and a
line feed is a space. -/
def plainChar (strict : Bool) (c : Char) : List Char :=
  if strict ∧ c = '\r' then []
  else if strict ∧ c = '\n' then [' ']
  else [c]

/-- The text that a raw text stands for. -/
def resolveEscapes (strict : Bool) : List Char → Except EscapeError (List Char)
  | [] => .ok []
  | ['\\'] => .error .loneBackslash
  | '\\' :: c :: rest =>
    match escaped? c with
    | some e => (resolveEscapes strict rest).map (e :: ·)
    | none => .error (.unknown c)
  | c :: rest => (resolveEscapes strict rest).map (plainChar strict c ++ ·)

theorem resolveEscapes_escaped {strict : Bool} {c e : Char} (h : escaped? c = some e)
    (rest : List Char) :
    resolveEscapes strict ('\\' :: c :: rest) = (resolveEscapes strict rest).map (e :: ·) := by
  rw [resolveEscapes, h]

theorem resolveEscapes_plain {strict : Bool} {c : Char} (h : c ≠ '\\') (rest : List Char) :
    resolveEscapes strict (c :: rest) =
      (resolveEscapes strict rest).map (plainChar strict c ++ ·) := by
  rw [resolveEscapes]
  · exact fun heq _ => h heq
  · exact fun _ _ heq _ => h heq

/-- `resolveEscapes` on strings. -/
def normalize (strict : Bool) (s : String) : Except EscapeError String :=
  (resolveEscapes strict s.toList).map String.ofList

end ResourceCompiler.Source
