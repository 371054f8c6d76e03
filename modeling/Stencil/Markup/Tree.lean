import Stencil.Outline
import Stencil.Text.Span

/-!
# Markup trees

A markup document is a list of elements, texts, comments and declarations.  An element has a start
tag with attributes, the nodes in it and perhaps an end tag.  The items of a document are what a
walk through it visits: the document, its nodes and the attributes of its elements.
-/

namespace Stencil.Markup

/-- An attribute.  Its value, if it has one, is given without its quotes and with its span. -/
structure Attribute where
  span : Span
  name : Text
  nameSpan : Span
  value : Option (Text × Span)
  deriving DecidableEq, Repr, Inhabited

/-- A node.  The name of an element is in lower case. -/
inductive Node where
  | element (span : Span) (name : Text) (startTag : Span) (attributes : List Attribute)
      (children : List Node) (endTag : Option Span)
  | text (span : Span)
  | comment (span : Span)
  | doctype (span : Span)
  deriving Inhabited, Repr

/-- The span of a node. -/
def Node.span : Node → Span
  | element s _ _ _ _ _ => s
  | text s => s
  | comment s => s
  | doctype s => s

/-- The number of elements that may be open at once. -/
def openLimit : Nat := 512

/-- What can be wrong with a document. -/
inductive Problem where
  | missingEndTag (name : Text)
  | unexpectedEndTag (name : Text)
  | unterminatedStartTag (name : Text)
  | unterminatedComment
  | unterminatedValue
  | tooDeep
  deriving DecidableEq, Repr, Inhabited

/-- The wording of a problem. -/
def Problem.message : Problem → String
  | missingEndTag name => "missing end tag for \x60<" ++ String.ofList name ++ ">\x60"
  | unexpectedEndTag name => "unexpected end tag \x60</" ++ String.ofList name ++ ">\x60"
  | unterminatedStartTag name => "unterminated start tag \x60<" ++ String.ofList name ++ ">\x60"
  | unterminatedComment => "unterminated comment"
  | unterminatedValue => "unterminated attribute value"
  | tooDeep => s!"elements nested deeper than {openLimit} levels are flattened"

/-- A problem at a place. -/
structure Issue where
  problem : Problem
  span : Span
  deriving DecidableEq, Repr, Inhabited

/-- A document: its width, its nodes and its issues in the order in which they are noticed. -/
structure Document where
  width : Nat
  children : List Node
  issues : List Issue
  deriving Inhabited, Repr

/-- The kinds of items. -/
inductive ItemKind where
  | document
  | element (name : Text) (attributes : List Attribute)
  | attr
  | text
  | comment
  | doctype
  deriving DecidableEq, Repr, Inhabited

/-- The name of a kind of item. -/
def ItemKind.typeName : ItemKind → String
  | document => "Document"
  | element _ _ => "Element"
  | attr => "Attribute"
  | text => "Text"
  | comment => "Comment"
  | doctype => "Doctype"

/-- What a walk through a document visits. -/
structure Item where
  kind : ItemKind
  span : Span
  deriving DecidableEq, Repr, Inhabited

namespace Item

/-- The name of the type of an item. -/
def typeName (i : Item) : String := i.kind.typeName

/-- The name of an element. -/
def elementName? (i : Item) : Option Text :=
  match i.kind with
  | .element name _ => some name
  | _ => none

/-- The attributes of an element. -/
def attributes (i : Item) : List Attribute :=
  match i.kind with
  | .element _ attributes => attributes
  | _ => []

end Item

/-- The names of the fields that are visited, by the name of the type. -/
def visitorKeys : Keys := [("Document", ["children"]), ("Element", ["attributes", "children"])]

/-- The outline of an attribute. -/
def Attribute.outline (a : Attribute) : Outline Item := .node ⟨.attr, a.span⟩ []

/-- The outlines in the fields that are visited, where those of the attributes and of the nodes
are given. -/
def outlinesOf (keys : List String) (attributes children : List (Outline Item)) :
    List (Outline Item) :=
  keys.flatMap fun key =>
    if key == "attributes" then attributes
    else if key == "children" then children
    else []

mutual

/-- The outline of a node under a table of keys. -/
def Node.outline (keys : Keys) : Node → Outline Item
  | .element span name _ attributes children _ =>
    .node ⟨.element name attributes, span⟩
      (outlinesOf (keys.fieldsOf "Element") (attributes.map Attribute.outline)
        (outlineAll keys children))
  | .text span => .node ⟨.text, span⟩ []
  | .comment span => .node ⟨.comment, span⟩ []
  | .doctype span => .node ⟨.doctype, span⟩ []

/-- The outlines of nodes under a table of keys. -/
def outlineAll (keys : Keys) : List Node → List (Outline Item)
  | [] => []
  | n :: rest => n.outline keys :: outlineAll keys rest

end

/-- The outline of a document under a table of keys. -/
def Document.outline (keys : Keys) (d : Document) : Outline Item :=
  .node ⟨.document, ⟨0, d.width⟩⟩
    (outlinesOf (keys.fieldsOf "Document") [] (outlineAll keys d.children))

end Stencil.Markup
