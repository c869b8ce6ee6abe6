/-!
# XML trees

## Main definitions

* `Xml.Node`: a text or an element with attributes and children.
* `Xml.Element`: an element on its own.
* `Xml.Element.attribute?`, `Xml.Element.elements`, `Xml.Element.text`: what is asked of elements.
-/

namespace ResourceCompiler.Xml

/-- A child of an element. -/
inductive Node where
  | text (text : String)
  | element (name : String) (attributes : List (String × String)) (children : List Node)

/-- An element. -/
structure Element where
  name : String
  attributes : List (String × String)
  children : List Node

/-- An element as a child of another one. -/
def Element.toNode (e : Element) : Node := .element e.name e.attributes e.children

/-- The node as an element, if it is one. -/
def Node.element? : Node → Option Element
  | .text _ => none
  | .element name attributes children => some ⟨name, attributes, children⟩

mutual

/-- The text of a node with all below it. -/
def Node.allText : Node → List Char
  | .text s => s.toList
  | .element _ _ children => Node.allTexts children

/-- The texts of nodes, one after the other. -/
def Node.allTexts : List Node → List Char
  | [] => []
  | n :: rest => Node.allText n ++ Node.allTexts rest

end

namespace Element

/-- The value of an attribute. -/
def attribute? (e : Element) (name : String) : Option String := e.attributes.lookup name

/-- The children that are elements. -/
def elements (e : Element) : List Element := e.children.filterMap Node.element?

/-- The text of the element and all elements below it, markup left out. -/
def text (e : Element) : String := String.ofList (Node.allTexts e.children)

end Element

theorem Node.element?_toNode (e : Element) : e.toNode.element? = some e := rfl

end ResourceCompiler.Xml
