import Stencil.Script.Grammar.Pattern

/-!
# Functions

The body of a function is a list of statements in braces.  The statements at its beginning that
consist of a string are directives.  An arrow function is told from an expression in parentheses
by the lexemes that follow the opening parenthesis, or, where these do not decide, by trying.
-/

namespace Stencil.Script

/-- The node as a directive, if it consists of a string that is not in parentheses. -/
def Node.asDirective? : Node → Option Node
  | .mk id span (.expressionStatement expression _) =>
    match expression.kind with
    | .literal (.string _) _ =>
      if expression.span.start == span.start then
        some (.mk id span (.expressionStatement expression true))
      else none
    | _ => none
  | _ => none

/-- Marks the directives at the beginning of a list of statements. -/
def markDirectives : List Node → List Node
  | [] => []
  | n :: rest =>
    match n.asDirective? with
    | some d => d :: markDirectives rest
    | none => n :: rest

namespace Parse

/-- The body of a function. -/
def functionBody (g : Level) (scope : Scope) : Parse Node := do
  let start ← start
  expect "\x7b"
  let body ← many (return (← atMark "\x7d") || (← atEnd)) (g.statement false scope.withIn)
  expect "\x7d"
  node start (.blockStatement (markDirectives body))

/-- The parameters and the body of a function. -/
def parametersAndBody (g : Level) (isGenerator isAsync : Bool) : Parse (List Node × Node) := do
  let scope : Scope := ⟨true, isGenerator, isAsync⟩
  let params ← parameters g scope
  if ← atMark "\x7b" then
    let body ← functionBody g scope
    pure (params, body)
  else unexpected

/-- A method without its name. -/
def method (g : Level) (isGenerator isAsync : Bool) : Parse Node := do
  let start ← start
  let (params, body) ← parametersAndBody g isGenerator isAsync
  node start (.functionExpression none params body)

/-- The name, the parameters and the body of a function, given the scope of its name and whether
it has to have one. -/
def functionParts (g : Level) (isAsync needsName : Bool) (nameScope : Bool → Scope) :
    Parse (Bool × Option Node × List Node × Node) := do
  expectWord "function"
  let isGenerator ← eat "*"
  let l ← current
  let name ←
    if l.isName then
      let name ← boundName (nameScope isGenerator)
      pure (some name)
    else
      noteIf (l.isReserved || (needsName && l.isMark "("))
      pure none
  let (params, body) ← parametersAndBody g isGenerator isAsync
  pure (isGenerator, name, params, body)

/-- A function as an expression. -/
def functionExpression (g : Level) : Parse Node := do
  let start ← start
  let isAsync ← eatWord "async"
  let (_, name, params, body) ← functionParts g isAsync false fun isGenerator =>
    ⟨true, isGenerator, isAsync⟩
  node start (.functionExpression name params body)

/-- A function as a statement.  It has a name, and where it stands on its own it is neither a
generator nor asynchronous. -/
def functionDeclaration (g : Level) (single : Bool) (scope : Scope) : Parse Node := do
  let start ← start
  let isAsync ← eatWord "async"
  let (isGenerator, name, params, body) ← functionParts g isAsync true fun _ => scope
  noteIf (single && (isAsync || isGenerator))
  node start (.functionDeclaration name params body)

/-- The reader stands at a function. -/
def atFunction : Parse Bool := do
  if ← atWord "function" then pure true
  else if ← atWord "async" then nextIs fun l newLine => l.isWord "function" && !newLine
  else pure false

/-- What the first lexemes of an expression in parentheses say about it. -/
inductive ArrowSign where
  | arrow
  | noArrow
  | unclear
  deriving DecidableEq, Repr, Inhabited

/-- Tells what an opening parenthesis begins by the lexeme after the first name in it. -/
def signAfterName : Parse ArrowSign := do
  let l ← current
  if l.isMark ":" then pure .arrow
  else if l.isMark "?" then
    advanceName
    let l ← current
    pure <|
      if l.isMark ":" || l.isMark "," || l.isMark "=" || l.isMark ")" then .arrow else .noArrow
  else if l.isMark "," || l.isMark "=" || l.isMark ")" then pure .unclear
  else pure .noArrow

/-- Tells what an opening parenthesis begins by the lexemes after it. -/
def signAfterOpening : Parse ArrowSign := do
  let l ← current
  if l.isMark ")" then
    advanceName
    let l ← current
    pure (if l.isMark "=>" || l.isMark ":" || l.isMark "\x7b" then .arrow else .noArrow)
  else if l.isMark "[" || l.isMark "\x7b" then pure .unclear
  else if l.isMark "..." then pure .arrow
  else if l.spelling ∈ modifierWords && l.isAnyWord && l.spelling != "async"
      && (← nextIs fun l _ => l.isName) then
    pure (if ← nextIs fun l _ => l.isWord "as" then .noArrow else .arrow)
  else if !l.isName && !l.isWord "this" then pure .noArrow
  else
    advanceName
    signAfterName

/-- Tells what an opening parenthesis begins. -/
def arrowSign : Parse ArrowSign := do
  let isAsync ← eatWord "async"
  if !(← atMark "(") || (isAsync && (← onNewLine)) then pure .noArrow
  else
    advanceName
    signAfterOpening

/-- The arrow of an arrow function. -/
def arrow : Parse Unit := do
  noteIf (← onNewLine)
  expect "=>"

/-- An arrow function from its body on. -/
def arrowBody (g : Level) (scope : Scope) (start : Nat) (isAsync : Bool) (params : List Node) :
    Parse Node := do
  let scope := { scope with isGenerator := false, isAsync := isAsync }
  if ← atMark "\x7b" then
    let body ← functionBody g scope
    node start (.arrowFunction params body false)
  else
    let body ← g.assignment scope
    node start (.arrowFunction params body true)

/-- The part of an arrow function before its body. -/
def arrowHead (g : Level) (scope : Scope) : Parse (Bool × List Node) := do
  let isAsync ← eatWord "async"
  let params ← parameters g { scope with isAsync := scope.isAsync || isAsync }
  arrow
  pure (isAsync, params)

/-- An arrow function whose parameters are in parentheses, or nothing where none begins. -/
def parenthesizedArrow? (g : Level) (scope : Scope) : Parse (Option Node) := do
  let l ← current
  if !(l.isMark "(" || l.isWord "async") then pure none
  else
    let start ← start
    match ← ahead arrowSign .noArrow with
    | .noArrow => pure none
    | .arrow =>
      let (isAsync, params) ← arrowHead g scope
      some <$> arrowBody g scope start isAsync params
    | .unclear =>
      if (← get).notArrows.contains start then pure none
      else
        match ← attempt (do
          let head ← arrowHead g scope
          if ← atEnd then unexpected else pure head) with
        | some (isAsync, params) => some <$> arrowBody g scope start isAsync params
        | none =>
          modify fun r => { r with notArrows := start :: r.notArrows }
          pure none

/-- Behind `async`, if it stands there, a name and an arrow follow on the same line. -/
def nameBeforeArrow : Parse Bool := do
  discard (eatWord "async")
  let newLine ← onNewLine
  let l ← current
  advanceName
  return l.isName && !newLine && (← atMark "=>")

/-- An asynchronous arrow function with a single parameter without parentheses, or nothing where
none begins. -/
def asyncArrow? (g : Level) (scope : Scope) : Parse (Option Node) := do
  if (← atWord "async") && (← ahead nameBeforeArrow false) then
    let start ← start
    advance
    let param ← boundName { scope with isAsync := true }
    arrow
    some <$> arrowBody g scope start true [param]
  else pure none

end Parse

end Stencil.Script
