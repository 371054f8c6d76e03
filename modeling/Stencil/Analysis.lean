import Stencil.Branch.Store
import Stencil.Error
import Stencil.View.Script

/-!
# The analysis of a document

What is known about a document: its tags, the program in them and its branches.  An analysis
never fails.  Where the tags or the program cannot be read, or the branches cannot be told, the
error is kept and the document is taken to have a single view.
-/

namespace Stencil

open Script

/-- A way to read the program in a script view. -/
abbrev ProgramReader := Text → Except ScriptError Program

/-- The usual way to read a program. -/
def readProgram : ProgramReader := fun t => (Program.ofText t).mapError .fault

/-- What is known about a document. -/
structure Analysis where
  lines : Lines
  outlined : Outlined
  script : Text
  program : Option Program
  parseError : Option Error
  branchError : Option BranchError

namespace Analysis

/-- The branches of the program, if there is one, and the reason why they cannot be told. -/
def branchesOf (document : Text) (program : Option Program) : Branches × Option BranchError :=
  match program with
  | none => ({}, none)
  | some p =>
    match Branches.ofTree document p.tree with
    | .ok b => (b, none)
    | .error e => ({}, some e)

/-- The analysis of a document with the given tags and program. -/
def ofParts (document : Text) (tags : List Tag) (program : Option Program)
    (parseError : Option Error) : Analysis :=
  let (branches, branchError) := branchesOf document program
  ⟨.ofText document, ⟨document, tags, branches⟩, scriptView document tags, program, parseError,
    branchError⟩

/-- The analysis of a document. -/
def ofDocument (read : ProgramReader) (settings : Settings) (document : Text) : Analysis :=
  match settings.tags document with
  | .error e => ofParts document [] none (some (.tag e))
  | .ok tags =>
    match read (scriptView document tags) with
    | .ok p => ofParts document tags (some p) none
    | .error e => ofParts document tags none (some (.script e))

/-- The document. -/
def document (a : Analysis) : Text := a.outlined.document

/-- The tags of the document. -/
def tags (a : Analysis) : List Tag := a.outlined.tags

/-- The tokens of a tag: its delimiters, and the tokens and comments of its code. -/
structure TagTokens where
  opening : Token
  tokens : List Token
  comments : List Token
  closing : Token
  deriving DecidableEq, Repr, Inhabited

/-- The token of a delimiter. -/
def delimiter (a : Analysis) (s : Span) : Token := ⟨.tagDelimiter, s.text a.document, s⟩

/-- The tokens of a tag, if there is a program. -/
def tokensOf? (a : Analysis) (tag : Tag) : Option TagTokens :=
  a.program.map fun p =>
    ⟨a.delimiter tag.opening, p.tokensIn tag.code, p.commentsIn tag.code,
      a.delimiter tag.closing⟩

/-- A visitor that collects the outermost statements within a span. -/
def statementCollector (s : Span) : Visitor Node (List Node) where
  enter n _ found :=
    if !n.span.intersects s then (.skip, found)
    else if n.isStatement && s.encloses n.span then
      (.skip, if n.typeName == "EmptyStatement" then found else found ++ [n])
    else (.continue, found)
  leave _ _ found := found

/-- The outermost statements of a tree within a span, empty ones apart. -/
def statementsWithin (tree : Node) (s : Span) : List Node :=
  ((tree.outline visitorKeys).walk (statementCollector s) []).2

/-- The statement that makes up the code of a tag, and its expression, if the code is a single
expression. -/
def expressionStatement? (a : Analysis) (tag : Tag) : Option (Node × Node) := do
  let p ← a.program
  match statementsWithin p.tree tag.span with
  | [n] =>
    match n.kind with
    | .expressionStatement e _ => some (n, e)
    | _ => none
  | _ => none

/-- A visitor of the items of the views of a document, which is also told the view. -/
structure ItemVisitor (σ : Type) where
  enter : Markup.Item → Option Markup.Item → View → σ → Action × σ
  leave : Markup.Item → Option Markup.Item → View → σ → σ

/-- What an item looks like: the name of its type, its span and its text in a view. -/
structure Appearance where
  typeName : String
  span : Span
  text : Text
  deriving DecidableEq, Repr

/-- The appearance of an item in a view. -/
def appearance (v : View) (i : Markup.Item) : Appearance := ⟨i.typeName, i.span, i.span.text v.text⟩

/-- The state of a walk through several views: the appearances that were met, whether the visitor
was told of each item that is being visited, the innermost one first, and its own state. -/
structure Sighting (σ : Type) where
  seen : List Appearance
  told : List Bool
  own : σ

/-- The visitor of one view that passes over what was met before. -/
def onceVisitor {σ : Type} (v : ItemVisitor σ) (view : View) :
    Visitor Markup.Item (Sighting σ) where
  enter i parent s :=
    let a := appearance view i
    if s.seen.contains a then (.skip, { s with told := false :: s.told })
    else
      let (action, own) := v.enter i parent view s.own
      (action, ⟨a :: s.seen, true :: s.told, own⟩)
  leave i parent s :=
    { s with
      told := s.told.tail
      own := if s.told.head? = some true then v.leave i parent view s.own else s.own }

/-- Walks through several views.  An item that looks like one met before is passed over with all
that is in it.  The first result says whether the walk was completed. -/
def walkViews {σ : Type} (v : ItemVisitor σ) (views : List View) (seen : List Appearance)
    (own : σ) : Bool × σ :=
  match views with
  | [] => (true, own)
  | view :: rest =>
    let outline := view.markup.outline Markup.visitorKeys
    match outline.walk (onceVisitor v view) ⟨seen, [], own⟩ with
    | (true, s) => walkViews v rest s.seen s.own
    | (false, s) => (false, s.own)

/-- The views that are needed to show all branches. -/
def views (a : Analysis) : StateM ViewStore (List View) :=
  return (← ViewStore.all a.outlined).map (·.2)

/-- Walks through the items of all views of the document. -/
def walkItems {σ : Type} (a : Analysis) (v : ItemVisitor σ) (own : σ) :
    StateM ViewStore (Bool × σ) :=
  return walkViews v (← a.views) [] own

end Analysis

end Stencil
