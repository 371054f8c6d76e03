import Stencil.Script.Grammar.Module

/-!
# Statements

The rules for statements.  A statement that is not in a list but the body of another one may not
declare anything but a plain function or a variable of the whole function.
-/

namespace Stencil.Script.Parse

/-- A block. -/
def block (g : Level) (scope : Scope) : Parse Node := do
  let start ← start
  expect "\x7b"
  let body ← many (return (← atMark "\x7d") || (← atEnd)) (g.statement false scope)
  expect "\x7d"
  node start (.blockStatement body)

/-- An expression in parentheses after a word. -/
def inParentheses (g : Level) (scope : Scope) : Parse Node := do
  expect "("
  let n ← expression g scope.withIn
  expect ")"
  pure n

/-- A declarator lacks a value that it has to have. -/
def lacksValue (kind : DeclarationKind) (n : Node) : Bool :=
  match n.kind with
  | .variableDeclarator target none => kind == .const || target.name?.isNone
  | _ => false

/-- A declarator. -/
def declarator (g : Level) (scope : Scope) : Parse Node := do
  let start ← start
  let target ← pattern g scope
  let value ← if ← eat "=" then some <$> g.assignment scope else pure none
  node start (.variableDeclarator target value)

/-- The declarators of a declaration.  Where it stands in the head of a loop, their values are
not asked for yet. -/
def declarators (g : Level) (scope : Scope) (kind : DeclarationKind) (inHead : Bool) :
    Parse (List Node) :=
  loop
    (fun (items : List Node) => do
      let n ← declarator g scope
      noteIf (!inHead && lacksValue kind n)
      if ← eat "," then pure (.inl (n :: items)) else pure (.inr (n :: items).reverse))
    []

/-- The kind of declaration that a word introduces. -/
def declarationKind (w : String) : DeclarationKind :=
  if w == "var" then .var else if w == "let" then .let else .const

/-- A declaration of variables as a statement. -/
def variableStatement (g : Level) (single : Bool) (scope : Scope) : Parse Node := do
  let start ← start
  let kind := declarationKind (← current).spelling
  advance
  let items ← declarators g scope kind false
  endStatement
  noteIf (single && kind != .var)
  node start (.variableDeclaration kind items)

/-- An expression as a statement, from the end of the expression on. -/
def endExpression (start : Nat) (n : Node) : Parse Node := do
  endStatement
  node start (.expressionStatement n false)

/-- An expression as a statement, or a labelled statement. -/
def expressionStatement (g : Level) (scope : Scope) : Parse Node := do
  let start ← start
  let n ← expression g scope
  if n.name?.isSome && (← atMark ":") then
    advance
    let body ← g.statement true scope
    node start (.labeledStatement n body)
  else endExpression start n

/-- The operator may stand after `let` as a name. -/
def followsLetAsName (l : Lexeme) : Bool :=
  l.spelling ∈ assignmentOperators || (rankOf? l.spelling).isSome

/-- What cannot be declared ends a statement that consists of the name `let`. -/
def endsLet (single : Bool) (l : Lexeme) : Bool := (single && !l.isMark "[") || l.isMark ";"

/-- The name `let` as a statement, or a declaration of variables. -/
def letDeclaration (g : Level) (single : Bool) (scope : Scope) : Parse Node := do
  if ← nextIs fun l _ => endsLet single l then
    let start ← start
    let n ← reference scope
    endExpression start n
  else variableStatement g single scope

/-- A statement that begins with `let`, which is a name if what follows cannot be declared. -/
def letStatement (g : Level) (single : Bool) (scope : Scope) : Parse Node := do
  if ← nextIs fun l _ => followsLetAsName l then
    let start ← start
    let n ← assignment g scope
    endExpression start n
  else if ← nextIs fun l _ => l.isMark "." || l.isMark "(" then
    let start ← start
    let n ← expression g scope
    node start (.expressionStatement n false)
  else letDeclaration g single scope

/-- A choice. -/
def ifStatement (g : Level) (scope : Scope) : Parse Node := do
  let start ← start
  advance
  let test ← inParentheses g scope
  let consequent ← g.statement true scope
  let alternate ← if ← eatWord "else" then some <$> g.statement true scope else pure none
  node start (.ifStatement test consequent alternate)

/-- A loop that tests after each round. -/
def doStatement (g : Level) (scope : Scope) : Parse Node := do
  let start ← start
  advance
  let body ← g.statement true scope
  expectWord "while"
  let test ← inParentheses g scope
  discard (eat ";")
  node start (.doWhileStatement body test)

/-- A loop that tests before each round. -/
def whileStatement (g : Level) (scope : Scope) : Parse Node := do
  let start ← start
  advance
  let test ← inParentheses g scope
  let body ← g.statement true scope
  node start (.whileStatement test body)

/-- A loop with a head of three parts, from the first semicolon on. -/
def countedLoop (g : Level) (scope : Scope) (start : Nat) (isAwaited : Bool)
    (init : Option Node) (isLacking : Bool) : Parse Node := do
  expect ";"
  noteIf isLacking
  let l ← current
  let test ←
    if l.isMark ";" || l.isMark ")" then pure none else some <$> expression g scope
  expect ";"
  let step ← if ← atMark ")" then pure none else some <$> expression g scope
  expect ")"
  noteIf isAwaited
  let body ← g.statement true scope
  node start (.forStatement init test step body)

/-- A loop over the keys of an object, from `in` on. -/
def keyLoop (g : Level) (scope : Scope) (start : Nat) (isAwaited : Bool) (left : Node) :
    Parse Node := do
  advance
  let right ← expression g scope
  expect ")"
  noteIf isAwaited
  let body ← g.statement true scope
  node start (.forInStatement left right body)

/-- A loop over the elements of a collection, from `of` on. -/
def elementLoop (g : Level) (scope : Scope) (start : Nat) (left : Node) : Parse Node := do
  advance
  let right ← g.assignment scope
  expect ")"
  let body ← g.statement true scope
  node start (.forOfStatement left right body)

/-- A declaration begins in the head of a loop. -/
def atHeadDeclaration : Parse Bool := do
  if (← atWord "var") || (← atWord "const") then pure true
  else if ← atWord "let" then
    nextIs fun l _ =>
      (l.isAnyWord && !l.isWord "in") || l.isMark "[" || l.isMark "\x7b"
  else pure false

/-- A loop whose head begins with a declaration. -/
def loopOverDeclaration (g : Level) (scope : Scope) (start : Nat) (isAwaited : Bool) :
    Parse Node := do
  let inner ← Parse.start
  let kind := declarationKind (← current).spelling
  advance
  let items ← declarators g scope.withoutIn kind true
  let head ← node inner (.variableDeclaration kind items)
  if ← atWord "in" then keyLoop g scope start isAwaited head
  else if ← atWord "of" then elementLoop g scope start head
  else countedLoop g scope start isAwaited (some head) (items.any (lacksValue kind))

/-- The form in which a target stands in the head of a loop. -/
def Node.asHead (n : Node) : Node :=
  match n.kind with
  | .identifier _ => n
  | .member .. => n
  | _ => .mk 0 n.span (.other "Pattern")

/-- A loop whose head begins with an expression. -/
def loopOverExpression (g : Level) (scope : Scope) (start : Nat) (isAwaited : Bool) :
    Parse Node := do
  let isLet ← atWord "let"
  let isAsync ← atWord "async"
  let isBareAsync := isAsync && (← nextIs fun l _ => l.isWord "of")
  let left ← expression g scope.withoutIn
  if ← atWord "in" then keyLoop g scope start isAwaited (Node.asHead (← target left))
  else if ← atWord "of" then
    noteIf (isLet || (isBareAsync && !isAwaited))
    elementLoop g scope start (Node.asHead (← target left))
  else countedLoop g scope start isAwaited (some left) false

/-- A loop that begins with `for`. -/
def forStatement (g : Level) (scope : Scope) : Parse Node := do
  let start ← start
  advance
  let isAwaited ← eatWord "await"
  noteIf (isAwaited && !scope.isAsync)
  expect "("
  if (← atMark ";") || (← atMark ")") then countedLoop g scope start isAwaited none false
  else if ← atHeadDeclaration then loopOverDeclaration g scope start isAwaited
  else loopOverExpression g scope start isAwaited

/-- A label after `break` or `continue`, if there is one, and the end of the statement. -/
def jumpLabel (scope : Scope) : Parse (Option Node) := do
  let label ← if ← atStatementEnd then pure none else some <$> reference scope
  endStatement
  pure label

/-- The end of a loop or a switch. -/
def breakStatement (scope : Scope) : Parse Node := do
  let start ← start
  advance
  let label ← jumpLabel scope
  node start (.breakStatement label)

/-- The end of a round of a loop. -/
def continueStatement (scope : Scope) : Parse Node := do
  let start ← start
  advance
  let label ← jumpLabel scope
  node start (.continueStatement label)

/-- The end of a function. -/
def returnStatement (g : Level) (scope : Scope) : Parse Node := do
  let start ← start
  advance
  if (← eat ";") || (← atStatementEnd) then node start (.returnStatement none)
  else
    let value ← expression g scope
    endStatement
    node start (.returnStatement (some value))

/-- A statement in the scope of an object. -/
def withStatement (g : Level) (scope : Scope) : Parse Node := do
  let start ← start
  advance
  let object ← inParentheses g scope
  let body ← g.statement true scope
  node start (.withStatement object body)

/-- A case of a switch. -/
def switchCase (g : Level) (scope : Scope) : Parse Node := do
  let start ← start
  let test ←
    if ← eatWord "default" then pure none
    else if ← eatWord "case" then some <$> expression g scope
    else unexpected
  expect ":"
  let ends : Parse Bool := do
    let l ← current
    pure (l.isWord "case" || l.isWord "default" || l.isMark "\x7d" || l.isEnd)
  let consequent ← many ends (g.statement false scope)
  node start (.switchCase test consequent)

/-- A switch. -/
def switchStatement (g : Level) (scope : Scope) : Parse Node := do
  let start ← start
  advance
  let value ← inParentheses g scope
  expect "\x7b"
  let cases ← many (return (← atMark "\x7d") || (← atEnd)) (switchCase g scope)
  expect "\x7d"
  node start (.switchStatement value cases)

/-- The throwing of an error. -/
def throwStatement (g : Level) (scope : Scope) : Parse Node := do
  let start ← start
  advance
  noteIf (← onNewLine)
  let value ← expression g scope
  endStatement
  node start (.throwStatement value)

/-- What is done about an error. -/
def catchClause (g : Level) (scope : Scope) : Parse Node := do
  let start ← start
  advance
  let param ←
    if ← eat "(" then
      let param ← pattern g scope
      expect ")"
      pure (some param)
    else pure none
  let body ← block g scope
  node start (.catchClause param body)

/-- A block with what is done about its errors and after it. -/
def tryStatement (g : Level) (scope : Scope) : Parse Node := do
  let start ← start
  advance
  let body ← block g scope
  let handler ← if ← atWord "catch" then some <$> catchClause g scope else pure none
  let finalizer ← if ← eatWord "finally" then some <$> block g scope else pure none
  noteIf (handler.isNone && finalizer.isNone)
  node start (.tryStatement body handler finalizer)

/-- A stop for a debugger. -/
def debuggerStatement : Parse Node := do
  let start ← start
  advance
  endStatement
  node start .debuggerStatement

/-- An empty statement. -/
def emptyStatement : Parse Node := do
  let start ← start
  advance
  node start .emptyStatement

/-- A statement that begins with a word. -/
def statementOfWord (g : Level) (single : Bool) (scope : Scope) (w : String) (escaped : Bool) :
    Parse Node := do
  match w with
  | "if" => ifStatement g scope
  | "do" => doStatement g scope
  | "while" => whileStatement g scope
  | "for" => forStatement g scope
  | "continue" => continueStatement scope
  | "break" => breakStatement scope
  | "with" => withStatement g scope
  | "switch" => switchStatement g scope
  | "throw" => throwStatement g scope
  | "try" => tryStatement g scope
  | "debugger" => debuggerStatement
  | "class" => classDeclaration g single scope
  | "export" => exportDeclaration g scope
  | "return" => returnStatement g scope
  | "var" => variableStatement g single scope
  | "const" => variableStatement g single scope
  | "let" => if escaped then expressionStatement g scope else letStatement g single scope
  | "import" =>
    if ← nextIs fun l _ => l.isMark "." || l.isMark "(" then expressionStatement g scope
    else importDeclaration scope
  | "using" =>
    if ← nextIs fun l newLine => l.isName && !newLine then variableStatement g single scope
    else expressionStatement g scope
  | _ =>
    if ← atFunction then functionDeclaration g single scope else expressionStatement g scope

/-- A statement. -/
def statement (g : Level) (single : Bool) (scope : Scope) : Parse Node := do
  match ← current with
  | .mark "\x7b" => block g scope
  | .mark ";" => emptyStatement
  | .mark "@" =>
    decorators g scope
    if ← atWord "class" then classDeclaration g single scope
    else if ← atWord "export" then exportDeclaration g scope
    else unexpected
  | .word w escaped => statementOfWord g single scope w escaped
  | _ => expressionStatement g scope

end Stencil.Script.Parse
