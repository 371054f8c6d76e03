import Stencil.Script.Grammar.Function
import Stencil.Script.Grammar.Target

/-!
# Classes

A class may have a name and a parent, and has members in braces.  A member is a method, a field or
a block of statements.  The whole of a class is a leaf of the tree; its members are read for their
faults.
-/

namespace Stencil.Script.Parse

/-- Moves past a word that says how the member named after it is computed, if the reader stands
at such a word. -/
def eatBeforeName (w : String) : Parse Bool := do
  let follows (l : Lexeme) (_ : Bool) : Bool :=
    l.isMark "[" || l.isMark "\x7b" || l.isMark "*" || l.isMark "..."
      || l == .privateName || l.isPropertyName
  if (← atWord w) && (← nextIs follows) then
    advance
    pure true
  else pure false

/-- A function that computes a member has other parameters than for the values that are given to
it. -/
def hasOtherParams (kind : PropertyKind) (value : Node) : Bool :=
  match value.kind with
  | .functionExpression _ params _ =>
    if kind == .get then !params.isEmpty
    else params.length != 1 || params.any (·.typeName == "RestElement")
  | _ => false

/-- The function of a member that is computed when it is read or written.  It has as many
parameters as values are given to it. -/
def accessorFunction (g : Level) (kind : PropertyKind) : Parse Node := do
  let value ← method g false false
  noteIf (hasOtherParams kind value)
  pure value

/-- The name of a member of a class. -/
def memberName (g : Level) (scope : Scope) : Parse Unit := do
  if (← current) == .privateName then advance else discard (propertyName g scope)

/-- The expressions after `@` before a class or one of its members. -/
def decorators (g : Level) (scope : Scope) : Parse Unit :=
  loop
    (fun _ => do
      if ← eat "@" then
        discard (g.leftHand scope)
        pure (.inl ())
      else pure (.inr ()))
    ()

/-- A block of statements among the members of a class. -/
def staticBlock (g : Level) : Parse Unit := do
  advance
  discard (functionBody g {})

/-- A member of a class. -/
def classMember (g : Level) (scope : Scope) : Parse Unit := do
  decorators g scope
  if (← atWord "static") && (← nextIs fun l _ => l.isMark "\x7b") then staticBlock g
  else
    let taken ← modifiers
    noteIf (taken.any (· ∉ ["static", "async", "accessor"]))
    let isAsync := taken.contains "async"
    if ← eatBeforeName "get" then
      memberName g scope
      discard (accessorFunction g .get)
    else if ← eatBeforeName "set" then
      memberName g scope
      discard (accessorFunction g .set)
    else
      let isGenerator ← eat "*"
      memberName g scope
      if isGenerator || (← atMark "(") || (← atMark "<") then
        discard (method g isGenerator isAsync)
      else
        noteIf isAsync
        if ← eat "=" then discard (g.assignment {})
        endStatement

/-- The members of a class. -/
def classMembers (g : Level) (scope : Scope) : Parse Unit :=
  loop
    (fun _ => do
      if ← eat ";" then pure (.inl ())
      else if (← atMark "\x7d") || (← atEnd) then pure (.inr ())
      else
        classMember g scope
        pure (.inl ()))
    ()

/-- A class. -/
def classParts (g : Level) (scope : Scope) : Parse Unit := do
  expectWord "class"
  if (← current).isName && !(← atWord "implements") then discard (boundName scope)
  if ← eatWord "extends" then discard (g.leftHand scope)
  expect "\x7b"
  classMembers g scope
  expect "\x7d"

/-- A class as an expression. -/
def classExpression (g : Level) (scope : Scope) : Parse Node := do
  let start ← start
  classParts g scope
  node start (.other "ClassExpression")

/-- A class as a statement.  It stands in a list. -/
def classDeclaration (g : Level) (single : Bool) (scope : Scope) : Parse Node := do
  let start ← start
  classParts g scope
  noteIf single
  node start (.other "ClassDeclaration")

end Stencil.Script.Parse
