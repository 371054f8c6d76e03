import Stencil.Markup.Tree
import Stencil.Text.Lines

/-!
# Reading markup

Any text is a markup document.  The text is cut into pieces, which are start tags, end tags,
comments, declarations and the text between them, and each piece is added to the elements that
are open at its place.  Some elements hold nothing but text, which goes on to their end tag.  An
element that is not closed ends with the element around it, and an end tag that closes nothing is
passed over.
-/

namespace Stencil.Markup

/-- The elements that have no end tag and hold nothing. -/
def voidNames : List Text :=
  ["area", "base", "br", "col", "embed", "hr", "img", "input", "link", "meta", "param", "source",
    "track", "wbr"].map (·.toList)

/-- The elements in which, as in themselves, a slash closes a start tag. -/
def foreignNames : List Text := ["svg", "math"].map (·.toList)

/-- The elements that hold nothing but text. -/
def rawNames : List Text := ["script", "style", "textarea", "title"].map (·.toList)

/-- The elements whose end tag may be left out. -/
def optionalEndNames : List Text :=
  ["html", "head", "body", "p", "li", "dt", "dd", "option", "optgroup", "tr", "td", "th", "thead",
    "tbody", "tfoot", "colgroup", "caption", "rt", "rp"].map (·.toList)

/-- The text in lower case, as far as it is in ASCII. -/
def lower (t : Text) : Text := t.map Char.toLower

/-- The number of characters before the first occurrence of a text that is not empty. -/
def charsBefore? (needle : Text) : Text → Option Nat
  | [] => none
  | c :: t => if needle.isPrefixOf (c :: t) then some 0 else (charsBefore? needle t).map (· + 1)

/-- A place in a text: the text from there on, and the offset. -/
structure Place where
  rest : Text
  offset : Nat
  deriving DecidableEq, Repr, Inhabited

namespace Place

/-- The place after a number of characters. -/
def skip (p : Place) (n : Nat) : Place :=
  ⟨p.rest.drop n, p.offset + Text.width (p.rest.take n)⟩

/-- The place after the characters at the beginning that satisfy a condition. -/
def skipWhile (p : Place) (condition : Char → Bool) : Place :=
  p.skip (p.rest.takeWhile condition).length

/-- The text up to a later place. -/
def textTo (p q : Place) : Text := p.rest.take (p.rest.length - q.rest.length)

/-- The span up to a later place. -/
def spanTo (p q : Place) : Span := ⟨p.offset, q.offset⟩

/-- The end of the text. -/
def finish (p : Place) : Place := p.skip p.rest.length

/-- The place after the next occurrence of a text, if there is one. -/
def after? (p : Place) (needle : Text) : Option Place :=
  (charsBefore? needle p.rest).map fun n => p.skip (n + needle.length)

end Place

/-- A character that may begin a name. -/
def isNameStart (c : Char) : Bool := c.isAlpha

/-- A letter stands at the beginning of a text. -/
def beginsName (t : Text) : Bool := t.head?.any isNameStart

/-- A piece of markup begins at the beginning of a text. -/
def beginsMarkup : Text → Bool
  | '<' :: '!' :: _ => true
  | '<' :: '?' :: _ => true
  | '<' :: '/' :: t => beginsName t
  | '<' :: t => beginsName t
  | _ => false

/-- The place where the name of a tag ends. -/
def nameEnd (p : Place) : Place := p.skipWhile fun c => !(isBlank c || c == '/' || c == '>')

/-- The place after the next closing angle bracket, or else the end of the text. -/
def tagEnd (p : Place) : Place := (p.after? ['>']).getD p.finish

/-- A part of a markup text that was read: what it is, the issues noticed on the way, and the
place after it. -/
structure Read (α : Type) where
  value : α
  issues : List Issue
  next : Place

/-- Reads the value of an attribute after the sign of equality and blank characters. -/
def readValue (p : Place) : Read (Text × Span) :=
  match p.rest with
  | c :: _ =>
    if c == '"' || c == '\'' then
      let start := p.skip 1
      let stop := start.skipWhile (· != c)
      if stop.rest.isEmpty then
        ⟨(start.textTo stop, start.spanTo stop), [⟨.unterminatedValue, p.spanTo stop⟩], stop⟩
      else ⟨(start.textTo stop, start.spanTo stop), [], stop.skip 1⟩
    else
      let stop := p.skipWhile fun c => !(isBlank c || c == '>')
      ⟨(p.textTo stop, p.spanTo stop), [], stop⟩
  | [] => ⟨([], p.spanTo p), [], p⟩

/-- Reads an attribute.  Its name has at least one character. -/
def readAttribute (p : Place) : Read Attribute :=
  let stop := (p.skip 1).skipWhile fun c => !(isBlank c || c == '=' || c == '>' || c == '/')
  let name := lower (p.textTo stop)
  let sign := stop.skipWhile isBlank
  match sign.rest with
  | '=' :: _ =>
    let r := readValue ((sign.skip 1).skipWhile isBlank)
    ⟨⟨p.spanTo r.next, name, p.spanTo stop, some r.value⟩, r.issues, r.next⟩
  | _ => ⟨⟨p.spanTo stop, name, p.spanTo stop, none⟩, [], stop⟩

/-- The rest of a start tag: its attributes, and whether a slash closes it. -/
structure TagRest where
  attributes : List Attribute
  isClosed : Bool
  deriving DecidableEq, Repr, Inhabited

/-- Reads the rest of a start tag after its name.  The issue that its end is missing is given.
The budget is at least as long as the text. -/
def readTagRest (missing : Issue) (budget : Text) (p : Place) : Read TagRest :=
  let p := p.skipWhile isBlank
  match budget, p.rest with
  | _ :: _, '/' :: '>' :: _ => ⟨⟨[], true⟩, [], p.skip 2⟩
  | _ :: _, '>' :: _ => ⟨⟨[], false⟩, [], p.skip 1⟩
  | _ :: budget, '/' :: _ => readTagRest missing budget (p.skip 1)
  | _ :: budget, _ :: _ =>
    let a := readAttribute p
    let r := readTagRest missing budget a.next
    ⟨{ r.value with attributes := a.value :: r.value.attributes }, a.issues ++ r.issues, r.next⟩
  | _, _ => ⟨⟨[], false⟩, [missing], p⟩

/-- An element that is open, with its nodes so far, the last one first. -/
structure Open where
  name : Text
  startTag : Span
  attributes : List Attribute
  children : List Node
  deriving Inhabited, Repr

/-- The state of the reading: the open elements, the innermost one first, the names of the start
tags beyond the limit whose end tag is still missing, the nodes outside of elements and the
issues, the last ones first. -/
structure Builder where
  opened : List Open := []
  flattened : List Text := []
  top : List Node := []
  issues : List Issue := []
  deriving Inhabited, Repr

namespace Builder

/-- Notes an issue. -/
def note (b : Builder) (i : Issue) : Builder := { b with issues := i :: b.issues }

/-- Notes issues one after the other. -/
def noteAll (b : Builder) (issues : List Issue) : Builder := issues.foldl note b

/-- Adds a node to the innermost open element. -/
def add (b : Builder) (n : Node) : Builder :=
  match b.opened with
  | [] => { b with top := n :: b.top }
  | e :: rest => { b with opened := { e with children := n :: e.children } :: rest }

/-- Closes the innermost open element at an offset. -/
def close (b : Builder) (stop : Nat) (endTag : Option Span) : Builder :=
  match b.opened with
  | [] => b
  | e :: rest =>
    { b with opened := rest }.add <|
      .element ⟨e.startTag.start, max stop e.startTag.stop⟩ e.name e.startTag e.attributes
        e.children.reverse endTag

/-- Notes that the innermost open element has no end tag, unless it needs none. -/
def noteUnclosed (b : Builder) : Builder :=
  match b.opened with
  | [] => b
  | e :: _ =>
    if e.name ∈ optionalEndNames then b else b.note ⟨.missingEndTag e.name, e.startTag⟩

/-- Closes a number of open elements without end tags. -/
def closeUnclosed (stop : Nat) : Nat → Builder → Builder
  | 0, b => b
  | n + 1, b => closeUnclosed stop n (b.noteUnclosed.close stop none)

/-- Takes an end tag with the given name. -/
def endTag (b : Builder) (name : Text) (span : Span) : Builder :=
  if b.flattened.head? = some name then { b with flattened := b.flattened.tail }
  else
    let inner := b.opened.findIdx (·.name = name)
    if inner < b.opened.length then
      ({ b with flattened := [] }.closeUnclosed span.start inner).close span.stop (some span)
    else b.note ⟨.unexpectedEndTag name, span⟩

/-- A start tag with the name `name` closes an open element with the name `opened`. -/
def closesImplied (name opened : Text) : Bool :=
  if name ∈ ["li", "p", "option", "tr"].map (·.toList) then opened = name
  else if name ∈ ["td", "th"].map (·.toList) then opened ∈ ["td", "th"].map (·.toList)
  else if name ∈ ["dt", "dd"].map (·.toList) then opened ∈ ["dt", "dd"].map (·.toList)
  else false

/-- Closes the innermost open element if a start tag does so. -/
def closeImplied (b : Builder) (name : Text) (start : Nat) : Builder :=
  match b.opened with
  | e :: _ => if closesImplied name e.name then b.close start none else b
  | [] => b

/-- A slash closes a start tag with the given name here. -/
def isForeign (b : Builder) (name : Text) : Bool :=
  name ∈ foreignNames || b.opened.any (·.name ∈ foreignNames)

/-- Takes a start tag, and tells whether nothing but text follows. -/
def startTag (b : Builder) (name : Text) (span : Span) (rest : TagRest) : Builder × Bool :=
  let b := b.closeImplied name span.start
  let leaf : Node := .element span name span rest.attributes [] none
  if (rest.isClosed && b.isForeign name) || name ∈ voidNames then (b.add leaf, false)
  else if b.opened.length ≥ openLimit && name ∉ rawNames then
    let b := if b.flattened.isEmpty then b.note ⟨.tooDeep, span⟩ else b
    ({ b with flattened := name :: b.flattened }.add leaf, false)
  else
    ({ b with opened := ⟨name, span, rest.attributes, []⟩ :: b.opened }, name ∈ rawNames)

end Builder

/-- Reads an end tag. -/
def readEndTag (b : Builder) (p : Place) : Builder × Place :=
  let start := p.skip 2
  let name := nameEnd start
  let stop := tagEnd name
  (b.endTag (lower (start.textTo name)) (p.spanTo stop), stop)

/-- The place where the text in an element with the given name ends. -/
def rawEnd (name : Text) (p : Place) : Place :=
  match charsBefore? (['<', '/'] ++ name) (lower p.rest) with
  | some n => p.skip n
  | none => p.finish

/-- Reads the text in an element that holds nothing else, and its end tag. -/
def readRaw (b : Builder) (name : Text) (p : Place) : Builder × Place :=
  let stop := rawEnd name p
  let b := if stop.offset > p.offset then b.add (.text (p.spanTo stop)) else b
  if stop.rest.isEmpty then (b, stop) else readEndTag b stop

/-- Reads a start tag and the text after it that is not read as markup. -/
def readStartTag (b : Builder) (p : Place) : Builder × Place :=
  let start := p.skip 1
  let stop := nameEnd start
  let name := lower (start.textTo stop)
  let missing : Issue := ⟨.unterminatedStartTag name, p.spanTo p.finish⟩
  let r := readTagRest missing (' ' :: stop.rest) stop
  let (b, isRaw) := (b.noteAll r.issues).startTag name (p.spanTo r.next) r.value
  if isRaw then readRaw b name r.next else (b, r.next)

/-- Reads a comment. -/
def readComment (b : Builder) (p : Place) : Builder × Place :=
  match (p.skip 4).after? ['-', '-', '>'] with
  | some stop => (b.add (.comment (p.spanTo stop)), stop)
  | none =>
    let span := p.spanTo p.finish
    ((b.note ⟨.unterminatedComment, span⟩).add (.comment span), p.finish)

/-- The number of characters before the next piece of markup. -/
def textLength : Text → Nat
  | [] => 0
  | c :: t => if beginsMarkup (c :: t) then 0 else textLength t + 1

/-- Reads the next piece. -/
def readPiece (b : Builder) (p : Place) : Builder × Place :=
  match p.rest with
  | '<' :: '!' :: '-' :: '-' :: _ => readComment b p
  | '<' :: '!' :: _ => (b.add (.doctype (p.spanTo (tagEnd p))), tagEnd p)
  | '<' :: '?' :: _ => (b.add (.doctype (p.spanTo (tagEnd p))), tagEnd p)
  | '<' :: '/' :: c :: t =>
    if isNameStart c then readEndTag b p
    else
      let stop := p.skip (textLength ('/' :: c :: t) + 1)
      (b.add (.text (p.spanTo stop)), stop)
  | '<' :: c :: t =>
    if isNameStart c then readStartTag b p
    else
      let stop := p.skip (textLength (c :: t) + 1)
      (b.add (.text (p.spanTo stop)), stop)
  | _ :: t =>
    let stop := p.skip (textLength t + 1)
    (b.add (.text (p.spanTo stop)), stop)
  | [] => (b, p)

/-- Reads the pieces of a text.  The budget is at least as long as the text. -/
def readPieces (budget : Text) (b : Builder) (p : Place) : Builder × Place :=
  match budget, p.rest with
  | _ :: budget, _ :: _ =>
    let (b, p) := readPiece b p
    readPieces budget b p
  | _, _ => (b, p)

/-- The document that a text is. -/
def Document.ofText (t : Text) : Document :=
  let (b, p) := readPieces t {} ⟨t, 0⟩
  let b := b.closeUnclosed p.offset b.opened.length
  ⟨Text.width t, b.top.reverse, b.issues.reverse⟩

end Stencil.Markup
