import Stencil.Script.Grammar.Expression

/-!
# Imports and exports

The statements that import names from other modules and export names to them are leaves of the
tree.
-/

namespace Stencil.Script.Parse

/-- The name of something in another module: a word or a string. -/
def moduleName : Parse Unit := do
  match ← current with
  | .string _ => advance
  | _ => discard anyName

/-- The source of a module. -/
def moduleSource : Parse Unit := do
  match ← current with
  | .string _ => advance
  | _ => unexpected

/-- An attribute of an import. -/
def importAttribute : Parse Unit := do
  moduleName
  expect ":"
  moduleSource

/-- The attributes of an import, if there are any. -/
def importAttributes : Parse Unit := do
  if (← atWord "with") || ((← atWord "assert") && !(← onNewLine)) then
    advance
    expect "\x7b"
    discard (separated "\x7d" importAttribute)
    expect "\x7d"

/-- A name in braces, with another name for it if need be. -/
def moduleSpecifier : Parse Unit := do
  moduleName
  if ← eatWord "as" then moduleName

/-- Names in braces. -/
def moduleSpecifiers : Parse Unit := do
  expect "\x7b"
  discard (separated "\x7d" moduleSpecifier)
  expect "\x7d"

/-- All names of a module under one name. -/
def importNamespace (scope : Scope) : Parse Unit := do
  expect "*"
  expectWord "as"
  discard (boundName scope)

/-- The names that an import binds. -/
def importBindings (scope : Scope) : Parse Unit := do
  if ← atMark "*" then importNamespace scope
  else if ← atMark "\x7b" then moduleSpecifiers
  else
    discard (boundName scope)
    if ← eat "," then
      if ← atMark "*" then importNamespace scope else moduleSpecifiers

/-- The rest of a statement that takes names from another module. -/
def fromModule : Parse Unit := do
  expectWord "from"
  moduleSource
  importAttributes
  endStatement

/-- An import. -/
def importDeclaration (scope : Scope) : Parse Node := do
  let start ← start
  advance
  match ← current with
  | .string _ =>
    advance
    importAttributes
    endStatement
  | _ =>
    importBindings scope
    fromModule
  node start (.other "Statement")

/-- The export of a value under the name `default`. -/
def exportDefault (g : Level) (scope : Scope) : Parse Unit := do
  if ← atFunction then discard (functionExpression g)
  else if ← atWord "class" then discard (classExpression g scope)
  else
    discard (g.assignment scope)
    endStatement

/-- An export. -/
def exportDeclaration (g : Level) (scope : Scope) : Parse Node := do
  let start ← start
  advance
  if ← eatWord "default" then exportDefault g scope
  else if ← eat "*" then
    if ← eatWord "as" then moduleName
    fromModule
  else if ← atMark "\x7b" then
    moduleSpecifiers
    if ← atWord "from" then fromModule else endStatement
  else if (← current).spelling ∈ ["var", "let", "const", "class", "function", "async"] then
    discard (g.statement false scope)
  else unexpected
  node start (.other "Statement")

end Stencil.Script.Parse
