import ResourceCompiler.Xml.Escape

/-!
# Tokens of XML

A document is read as a sequence of tokens: tags, texts, and what is passed over. What is no token
ends the sequence.

## Main definitions

* `Xml.Token`: the tokens.
* `Xml.readAttributes`: the attributes of a tag.
* `Xml.Token.scan`: the tokens of a text.
-/

namespace ResourceCompiler.Xml

/-- A token of a document. -/
inductive Token where
  | start (name : String) (attributes : List (String × String))
  /-- A tag that is an element without children. -/
  | empty (name : String) (attributes : List (String × String))
  | close (name : String)
  | text (text : String)
  /-- A text between the marks of a section without markup. -/
  | verbatim (text : String)
  /-- A comment, a processing instruction or a document type. -/
  | passedOver
  /-- Markup that is no token. -/
  | fault
deriving DecidableEq

/-- The blanks inside a tag. -/
def isSpace (c : Char) : Bool := c == ' ' || c == '\r' || c == '\n' || c == '\t'

/-! ### Where markup ends -/

/-- The text up to a `>` outside quotes, and the text behind it. A quote that is open is given. -/
def splitTag : Option Char → List Char → Option (List Char × List Char)
  | _, [] => none
  | none, c :: rest =>
    if c = '>' then some ([], rest)
    else
      let quote := if c = '"' ∨ c = '\'' then some c else none
      (splitTag quote rest).map fun (cs, rest) => (c :: cs, rest)
  | some q, c :: rest =>
    (splitTag (if c = q then none else some q) rest).map fun (cs, rest) => (c :: cs, rest)

/-- The text up to the first place where an ending stands, and the text behind the ending. -/
def splitAtEnding (ending : List Char) : List Char → Option (List Char × List Char)
  | [] => if ending = [] then some ([], []) else none
  | c :: rest =>
    if ending.isPrefixOf (c :: rest) then some ([], (c :: rest).drop ending.length)
    else (splitAtEnding ending rest).map fun (cs, rest) => (c :: cs, rest)

/-- The text up to a `>` in front of which as many `<` as `>` stand; `depth` counts the `<` that
are open. -/
def splitDeclaration : Int → List Char → Option (List Char × List Char)
  | _, [] => none
  | depth, c :: rest =>
    if c = '>' ∧ depth = 0 then some ([], rest)
    else
      let depth := if c = '<' then depth + 1 else if c = '>' then depth - 1 else depth
      (splitDeclaration depth rest).map fun (cs, rest) => (c :: cs, rest)

/-! ### Tags -/

/-- The attributes in a tag behind its name, of which `taken` are the names so far. A name is
followed by an equals sign and a value in quotes; blanks may stand around them. -/
def readAttributes : Nat → List (List Char) → List Char → Option (List (String × String))
  | 0, _, _ => none
  | fuel + 1, taken, cs =>
    match cs.dropWhile isSpace with
    | [] => some []
    | first :: rest =>
      let inName (c : Char) : Bool := c != '=' && !isSpace c
      let name := first :: rest.takeWhile inName
      match (rest.dropWhile inName).dropWhile isSpace with
      | '=' :: rest =>
        if name ∈ taken then none
        else match rest.dropWhile isSpace with
          | quote :: rest =>
            if quote = '"' ∨ quote = '\'' then
              match rest.dropWhile (· != quote) with
              | _ :: behind => do
                let value ← unescape (rest.takeWhile (· != quote))
                let more ← readAttributes fuel (name :: taken) behind
                return (String.ofList name, String.ofList value) :: more
              | [] => none
            else none
          | [] => none
      | _ => none

/-- The token of a tag that starts an element, by what stands between its brackets. -/
def Token.ofTag (content : List Char) : Token :=
  let closed := content.getLast? = some '/'
  let content := if closed then content.dropLast else content
  let name := String.ofList (content.takeWhile fun c => !isSpace c)
  match readAttributes (content.length + 1) [] (content.dropWhile fun c => !isSpace c) with
  | some attributes => if closed then .empty name attributes else .start name attributes
  | none => .fault

/-- The token of an end tag, by what stands behind its slash: a name, and blanks behind it. -/
def Token.ofEndTag (content : List Char) : Token :=
  match content.reverse.dropWhile isSpace with
  | [] => .close (String.ofList content)
  | name => .close (String.ofList name.reverse)

/-- The token behind `<!`, and the text behind the token. -/
def Token.bang (cs : List Char) : Option (Token × List Char) :=
  match cs with
  | '-' :: '-' :: rest =>
    (splitAtEnding ['-', '-', '>'] rest).map fun (_, rest) => (.passedOver, rest)
  | '[' :: 'C' :: 'D' :: 'A' :: 'T' :: 'A' :: '[' :: rest =>
    (splitAtEnding [']', ']', '>'] rest).map fun (cs, rest) => (.verbatim (String.ofList cs), rest)
  | cs =>
    if (cs.take 7).map Char.toUpper = "DOCTYPE".toList then
      match splitDeclaration 0 (cs.drop 7) with
      | some (name, rest) => if name.all isSpace then none else some (.passedOver, rest)
      | none => none
    else none

/-- The token behind `<`, and the text behind the token. -/
def Token.markup (cs : List Char) : Option (Token × List Char) :=
  match cs with
  | [] => none
  | '!' :: rest => Token.bang rest
  | '?' :: '>' :: _ => none
  | '?' :: rest => (splitAtEnding ['?', '>'] rest).map fun (_, rest) => (.passedOver, rest)
  | '/' :: rest => (splitTag none rest).map fun (content, rest) => (.ofEndTag content, rest)
  | cs => (splitTag none cs).map fun (content, rest) => (.ofTag content, rest)

/-- The token of a text between markup. -/
def Token.ofText (cs : List Char) : Token :=
  match unescape cs with
  | some chars => .text (String.ofList chars)
  | none => .fault

/-- The tokens of a text. The fuel is enough, since a token takes a character. -/
def Token.scanWith : Nat → List Char → List Token
  | 0, _ => []
  | _, [] => []
  | fuel + 1, '<' :: rest =>
    match Token.markup rest with
    | some (token, rest) => token :: scanWith fuel rest
    | none => [.fault]
  | fuel + 1, cs =>
    .ofText (cs.takeWhile (· != '<')) :: scanWith fuel (cs.dropWhile (· != '<'))

/-- The tokens of a document. A mark for the order of bytes in front does not count. -/
def Token.scan (s : String) : List Token :=
  let cs := match s.toList with
    | '\uFEFF' :: rest => rest
    | cs => cs
  Token.scanWith (cs.length + 1) cs

end ResourceCompiler.Xml
