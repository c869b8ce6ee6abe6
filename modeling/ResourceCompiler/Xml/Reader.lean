import ResourceCompiler.Text.Blank
import ResourceCompiler.Xml.Element
import ResourceCompiler.Xml.Token

/-!
# Reading XML

## Main definitions

* `Xml.XmlError`: why a text is no document.
* `Xml.Open`: a document as far as it has been read.
* `Xml.read`: the root element of a document.
-/

namespace ResourceCompiler.Xml

/-- Why a text is no document. -/
inductive XmlError where
  /-- Markup that is none, or an end tag that closes another element. -/
  | malformed
  | textOutsideRoot
  | neverClosed (name : String)
  | noRoot
  | secondRoot
deriving DecidableEq

/-- The wording of a fault; for wrong markup it is only a mark. -/
def XmlError.message : XmlError → String
  | .malformed => "<xml>"
  | .textOutsideRoot => "text outside of the root element"
  | .neverClosed name => "element <" ++ name ++ "> is never closed"
  | .noRoot => "document has no root element"
  | .secondRoot => "document has more than one root element"

/-- A document as far as it has been read: the elements that are open, the innermost first, and the
root if it has been closed. -/
structure Open where
  stack : List Element := []
  root : Option Element := none

namespace Open

/-- The element with one more child. -/
def withChild (e : Element) (n : Node) : Element := { e with children := e.children ++ [n] }

/-- A finished element goes to the innermost open one, or is the root. -/
def attach (o : Open) (e : Element) : Except XmlError Open :=
  match o.stack, o.root with
  | top :: rest, root => .ok ⟨withChild top e.toNode :: rest, root⟩
  | [], none => .ok ⟨[], some e⟩
  | [], some _ => .error .secondRoot

/-- Takes in a token. -/
def take (o : Open) : Token → Except XmlError Open
  | .start name attributes => .ok { o with stack := ⟨name, attributes, []⟩ :: o.stack }
  | .empty name attributes => o.attach ⟨name, attributes, []⟩
  | .close name =>
    match o.stack with
    | top :: rest =>
      if top.name = name then attach { o with stack := rest } top else .error .malformed
    | [] => .error .malformed
  | .text text =>
    match o.stack with
    | top :: rest => .ok { o with stack := withChild top (.text text) :: rest }
    | [] => if text.toList.all Text.isBlank then .ok o else .error .textOutsideRoot
  | .verbatim text =>
    match o.stack with
    | top :: rest => .ok { o with stack := withChild top (.text text) :: rest }
    | [] => .ok o
  | .passedOver => .ok o
  | .fault => .error .malformed

/-- The root, once all has been read. -/
def finish (o : Open) : Except XmlError Element :=
  match o.stack, o.root with
  | top :: _, _ => .error (.neverClosed top.name)
  | [], some root => .ok root
  | [], none => .error .noRoot

end Open

/-- The root element of a document. -/
def read (s : String) : Except XmlError Element := do
  let o ← (Token.scan s).foldlM Open.take {}
  o.finish

end ResourceCompiler.Xml
