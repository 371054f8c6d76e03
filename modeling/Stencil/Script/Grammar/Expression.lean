import Stencil.Script.Grammar.Class

/-!
# Expressions

The rules for expressions, from those that bind most tightly to those that bind least: primary
expressions, members and calls, operators with one operand, operators with two operands,
conditions and assignments.
-/

namespace Stencil.Script.Parse

/-- Expressions with commas between them. -/
def expression (g : Level) (scope : Scope) : Parse Node := do
  let start ← start
  let first ← g.assignment scope
  if ← atMark "," then
    let items ← loop
      (fun items => do
        if ← eat "," then pure (.inl ((← g.assignment scope) :: items))
        else pure (.inr items.reverse))
      [first]
    node start (.sequence items)
  else pure first

/-- A literal that is a single lexeme. -/
def literal (value : Text → LiteralValue) : Parse Node := do
  let start ← start
  let source ← here
  advance
  let raw ← sourceFrom start source
  node start (.literal (value raw) raw)

/-- The value of the source of a regular expression. -/
def regexValue (raw : Text) : LiteralValue :=
  let flags := (raw.reverse.takeWhile (· != '/')).reverse
  .regex ((raw.drop 1).take (raw.length - flags.length - 2)) flags

/-- A regular expression. -/
def regex : Parse Node := do
  modify fun r => r.reread r.lexed.asRegex
  literal regexValue

/-- A piece of a template with the expression behind it, or the last piece. -/
def templatePiece (g : Level) (scope : Scope) (tagged : Bool) : Parse (Unit ⊕ Unit) := do
  match ← current with
  | .template part valid =>
    noteIf (!tagged && !valid)
    advance
    if part == .whole || part == .tail then pure (.inr ())
    else
      discard (expression g scope.withIn)
      if ← atMark "\x7d" then modify fun r => r.reread r.lexed.asTemplate
      pure (.inl ())
  | _ => expected "\x7d"

/-- A template.  Where a function is applied to it, escapes need no meaning. -/
def template (g : Level) (scope : Scope) (tagged : Bool) : Parse Node := do
  let start ← start
  let source ← here
  loop (fun _ => templatePiece g scope tagged) ()
  let raw ← sourceFrom start source
  node start (.templateLiteral raw)

/-- What stands in parentheses, from the end of its items on.  They begin at offset `start`. -/
def closeParenthesis (start : Nat) : List Node → Parse Node
  | [] => do
    expect ")"
    throw .other
  | [item] => do
    expect ")"
    pure item
  | items => do
    let n ← node start (.sequence items)
    expect ")"
    pure n

/-- An expression in parentheses, without them. -/
def parenthesized (g : Level) (scope : Scope) : Parse Node := do
  advance
  let start ← start
  let (items, comma) ← separated ")" (g.assignment scope.withIn)
  if comma then throw .other
  closeParenthesis start items

/-- An element of an array. -/
def element (g : Level) (scope : Scope) : Parse (Option Node) := do
  if ← atMark "," then pure none
  else if ← atMark "..." then some <$> spread g scope
  else some <$> g.assignment scope

/-- Remembers that a list which begins at offset `start` has a comma at its end. -/
def rememberComma (start : Nat) (comma : Bool) : Parse Unit :=
  if comma then modify fun r => { r with trailing := start :: r.trailing } else pure ()

/-- An array. -/
def array (g : Level) (scope : Scope) : Parse Node := do
  let start ← start
  advance
  let (elements, comma) ← separated "]" (element g scope.withIn)
  rememberComma start comma
  expect "]"
  node start (.arrayExpression elements)

/-- A property after its name, where it is a name of its own or has a value. -/
def propertyRest (g : Level) (scope : Scope) (start : Nat) (key : Node)
    (isName computed : Bool) : Parse Node := do
  if isName && !(← atMark ":") then
    match key.name? with
    | none => unexpected
    | some _ =>
      if ← eat "=" then
        discard (g.assignment scope)
        modify fun r => { r with uncovered := start :: r.uncovered }
      node start (.property key key .init computed true false)
  else
    expect ":"
    let value ← g.assignment scope
    node start (.property key value .init computed false false)

/-- A property that is computed by a function when it is read or written. -/
def accessor (g : Level) (scope : Scope) (start : Nat) (kind : PropertyKind) : Parse Node := do
  let (key, computed) ← propertyName g scope
  let value ← accessorFunction g kind
  node start (.property key value kind computed false false)

/-- A property of an object. -/
def property (g : Level) (scope : Scope) : Parse Node := do
  if ← atMark "..." then spread g scope
  else
    let start ← start
    let taken ← modifiers
    if ← eatBeforeName "get" then
      noteIf !taken.isEmpty
      accessor g scope start .get
    else if ← eatBeforeName "set" then
      noteIf !taken.isEmpty
      accessor g scope start .set
    else
      let isGenerator ← eat "*"
      let isName := (← current).isName
      let (key, computed) ← propertyName g scope
      if isGenerator || (← atMark "(") || (← atMark "<") then
        noteIf (taken.any (· != "async"))
        let value ← method g isGenerator (taken.contains "async")
        node start (.property key value .init computed false true)
      else
        noteIf !taken.isEmpty
        propertyRest g scope start key isName computed

/-- An object. -/
def object (g : Level) (scope : Scope) : Parse Node := do
  let start ← start
  advance
  let (properties, comma) ← separated "\x7d" (property g scope.withIn)
  rememberComma start comma
  expect "\x7d"
  node start (.objectExpression properties)

/-- An argument of a call. -/
def argument (g : Level) (scope : Scope) : Parse Node := do
  if ← atMark "..." then spread g scope else g.assignment scope

/-- The arguments of a call. -/
def arguments (g : Level) (scope : Scope) : Parse (List Node) := do
  expect "("
  let (items, _) ← separated ")" (argument g scope.withIn)
  expect ")"
  pure items

/-- The access to the parent class. -/
def superAccess : Parse Node := do
  let start ← start
  advance
  let l ← current
  noteIf !(l.isMark "." || l.isMark "[" || l.isMark "(")
  node start (.other "Expression")

/-- The import of a module in an expression. -/
def importExpression (g : Level) (scope : Scope) : Parse Node := do
  let start ← start
  advance
  if ← eat "." then
    if ← eatWord "meta" then node start (.other "Expression")
    else
      advance
      throw .other
  else if ← atMark "(" then
    advance
    if ← atMark ")" then throw .other
    let (_, _) ← separated ")" (g.assignment scope.withIn)
    expect ")"
    node start (.other "Expression")
  else unexpected

/-- A member by name of an expression that begins at offset `start`. -/
def namedMember (start : Nat) (left : Node) (isOptional : Bool) : Parse Node := do
  if (← current) == .privateName then
    let inner ← Parse.start
    advance
    let name ← node inner (.other "PrivateIdentifier")
    node start (.member left name false isOptional)
  else
    let name ← anyName
    node start (.member left name false isOptional)

/-- A computed member of an expression that begins at offset `start`. -/
def computedMember (g : Level) (scope : Scope) (start : Nat) (left : Node) (isOptional : Bool) :
    Parse Node := do
  advance
  let name ← expression g scope.withIn
  expect "]"
  node start (.member left name true isOptional)

/-- A template to which an expression that begins at offset `start` is applied. -/
def tagged (g : Level) (scope : Scope) (start : Nat) (left : Node) (inChain : Bool) :
    Parse Node := do
  let quasi ← template g scope true
  noteIf inChain
  node start (.taggedTemplate left quasi)

/-- A member of an expression that begins at offset `start` behind the mark of an optional chain. -/
def optionalMember (g : Level) (scope : Scope) (start : Nat) (left : Node) : Parse Node := do
  advance
  let l ← current
  if l.isMark "[" then computedMember g scope start left true
  else if l.isTemplateStart then tagged g scope start left true
  else namedMember start left true

/-- The lexeme goes on with an optional chain by a member. -/
def beginsMember (l : Lexeme) : Bool :=
  l.isAnyWord || l == .privateName || l.isMark "[" || l.isTemplateStart

/-- An expression that begins at offset `start` with the member that follows it, or without one
where none follows.  The result says as well whether the members form an optional chain. -/
def member (g : Level) (scope : Scope) (start : Nat) (allowsChain : Bool) (left : Node)
    (inChain : Bool) : Parse ((Node × Bool) ⊕ (Node × Bool)) := do
  let l ← current
  if l.isMark "." then
    advance
    pure (.inl (← namedMember start left false, inChain))
  else if l.isMark "[" then
    pure (.inl (← computedMember g scope start left false, inChain))
  else if l.isTemplateStart then
    pure (.inl (← tagged g scope start left inChain, inChain))
  else if allowsChain && l.isMark "?." && (← nextIs fun l _ => beginsMember l) then
    pure (.inl (← optionalMember g scope start left, true))
  else pure (.inr (left, inChain))

/-- The members of an expression that begins at offset `start`, and whether they form an
optional chain. -/
def members (g : Level) (scope : Scope) (start : Nat) (allowsChain : Bool) (left : Node)
    (inChain : Bool) : Parse (Node × Bool) :=
  loop (fun (left, inChain) => member g scope start allowsChain left inChain) (left, inChain)

/-- What an object is created from, with its members. -/
def newCallee (g : Level) (scope : Scope) : Parse Node := do
  let start ← start
  let first ←
    if ← atWord "import" then
      note .other
      importExpression g scope
    else g.primary scope
  let (callee, _) ← members g scope start false first false
  noteIf (← atMark "?.")
  pure callee

/-- The creation of an object. -/
def newExpression (g : Level) (scope : Scope) : Parse Node := do
  let start ← start
  advance
  if ← eat "." then
    if ← eatWord "target" then node start (.other "Expression")
    else
      advance
      throw .other
  else
    let callee ← newCallee g scope
    let args ← if ← atMark "(" then arguments g scope else pure []
    node start (.new callee args)

/-- A primary expression that begins with a word. -/
def primaryWord (g : Level) (scope : Scope) (w : String) : Parse Node := do
  match w with
  | "this" =>
    let start ← start
    advance
    node start .thisExpression
  | "true" => literal fun _ => .boolean true
  | "false" => literal fun _ => .boolean false
  | "null" => literal fun _ => .null
  | "class" => classExpression g scope
  | "new" => newExpression g scope
  | _ => if ← atFunction then functionExpression g else reference scope

/-- A primary expression. -/
def primary (g : Level) (scope : Scope) : Parse Node := do
  match ← current with
  | .word w _ => primaryWord g scope w
  | .number _ => literal .number
  | .string value => literal fun _ => .string value
  | .template .whole _ => template g scope false
  | .template .head _ => template g scope false
  | .mark "(" => parenthesized g scope
  | .mark "[" => array g scope
  | .mark "\x7b" => object g scope
  | .mark "/" => regex
  | .mark "/=" => regex
  | .mark "@" =>
    decorators g scope
    if ← atWord "class" then classExpression g scope else unexpected
  | _ => unexpected

/-- An expression that begins at offset `start` with the members that follow it and the call behind
these, or without a call where none follows. -/
def call (g : Level) (scope : Scope) (start : Nat) (left : Node) (inChain : Bool) :
    Parse ((Node × Bool) ⊕ (Node × Bool)) := do
  let (left, inChain) ← members g scope start true left inChain
  let isOptional ← eat "?."
  if ← atMark "(" then
    let args ← arguments g scope
    pure (.inl (← node start (.call left args isOptional), inChain || isOptional))
  else if isOptional then unexpected
  else pure (.inr (left, inChain))

/-- The calls and members of an expression that begins at offset `start`, and whether they form
an optional chain. -/
def calls (g : Level) (scope : Scope) (start : Nat) (left : Node) : Parse (Node × Bool) :=
  loop (fun (left, inChain) => call g scope start left inChain) (left, false)

/-- An optional chain that ends with a private name is a leaf. -/
def closeChain (n : Node) : Node :=
  match n.kind with
  | .member _ name _ _ => if name.isPrivateName then .mk 0 n.span (.other "ChainExpression") else n
  | _ => n

/-- An expression with its members and calls. -/
def leftHand (g : Level) (scope : Scope) : Parse Node := do
  let start ← start
  let first ←
    if ← atWord "super" then superAccess
    else if ← atWord "import" then importExpression g scope
    else primary g scope
  let (n, inChain) ← calls g scope start first
  pure (if inChain then closeChain n else n)

/-- The reader stands at a mark that counts up or down. -/
def atUpdate : Parse Bool := return (← atMark "++") || (← atMark "--")

/-- The reader stands at such a mark behind its operand, on the line of the operand. -/
def atUpdateBehind : Parse Bool := return (← atUpdate) && !(← onNewLine)

/-- The operand of a mark in front of it.  An operand that begins with such a mark itself is taken
to begin at offset `start`, where the first of the marks stands. -/
def countedOperand (g : Level) (scope : Scope) (start : Nat) : Parse Node := do
  let isNested ← atUpdate
  let operand ← g.unary scope
  pure (if isNested then .mk 0 ⟨start, operand.span.stop⟩ operand.kind else operand)

/-- An expression that may be counted up or down. -/
def update (g : Level) (scope : Scope) : Parse Node := do
  let start ← start
  let l ← current
  if ← atUpdate then
    advance
    let operand ← simpleTarget (← countedOperand g scope start)
    node start (.update l.spelling true operand)
  else
    let operand ← leftHand g scope
    let l ← current
    if ← atUpdateBehind then
      advance
      let operand ← simpleTarget operand
      node start (.update l.spelling false operand)
    else pure operand

/-- The reader stands at the given word with an operand on the same line. -/
def atWordWithOperand (w : String) : Parse Bool := do
  if ← atWord w then nextIs fun l newLine => l.followsYield && !newLine else pure false

/-- The wait for a value. -/
def awaitExpression (g : Level) (scope : Scope) : Parse Node := do
  let start ← start
  noteIf !scope.isAsync
  advance
  discard (g.unary { scope with isAsync := true })
  node start (.other "AwaitExpression")

/-- An expression with operators before it. -/
def unary (g : Level) (scope : Scope) : Parse Node := do
  let l ← current
  if l.spelling ∈ unaryOperators then
    let start ← start
    advance
    let operand ← g.unary scope
    noteIf (← atMark "**")
    node start (.unary l.spelling operand)
  else if l.isWord "await" then
    let n ←
      if scope.isAsync || (← atWordWithOperand "await") then awaitExpression g scope
      else update g scope
    noteIf (← atMark "**")
    pure n
  else update g scope

/-- The test whether an object has a member with a private name. -/
def privateIn (g : Level) (scope : Scope) : Parse Node := do
  let start ← start
  advance
  expectWord "in"
  discard (g.unary scope)
  node start (.other "Expression")

/-- The node has an operator that decides by its left operand whether the right one counts. -/
def isLogical (n : Node) : Bool :=
  match n.kind with
  | .logical .. => true
  | _ => false

/-- The node has such an operator, and it is not `??`. -/
def isPlainLogical (n : Node) : Bool :=
  match n.kind with
  | .logical op _ _ => op != "??"
  | _ => false

/-- The operator mixes badly with one of the operands, which is not in parentheses. -/
def mixesBadly (operator : String) (left right : Node) (leftParen rightParen : Bool) : Bool :=
  operator == "??" &&
    if isLogical right && !rightParen then isPlainLogical right
    else isPlainLogical left && !leftParen

/-- An operand that begins at offset `start` with the operator behind it, which has rank `own`, and
the second operand. -/
def operation (g : Level) (scope : Scope) (start : Nat) (leftParen : Bool) (left : Node)
    (operator : String) (own : Nat) : Parse Node := do
  advance
  let rightParen ← atMark "("
  let right ← g.binary own scope
  if isLogicalOperator operator then
    noteIf (mixesBadly operator left right leftParen rightParen)
    node start (.logical operator left right)
  else node start (.binary operator left right)

/-- An operator between an expression and a type is refused. -/
def refuseCast (rank : Nat) (operator : String) : Parse Unit := do
  if (operator == "as" || operator == "satisfies") && rank < 8 && !(← onNewLine) then
    advance
    if ← atEnd then unexpected else throw .other

/-- An operand that begins at offset `start` with the given operator and the second operand, or
without them where this is no operator of a rank above `rank`. -/
def operationAt (g : Level) (scope : Scope) (rank start : Nat) (leftParen : Bool) (left : Node)
    (operator : String) : Parse (Node ⊕ Node) :=
  match rankOf? operator with
  | none => do
    refuseCast rank operator
    pure (.inr left)
  | some own =>
    if own < rank || (own == rank && operator != "**")
        || (operator == "in" && !scope.allowsIn) then
      pure (.inr left)
    else do pure (.inl (← operation g scope start leftParen left operator own))

/-- The operators of a rank above `rank` after their first operand. -/
def operators (g : Level) (scope : Scope) (rank start : Nat) (leftParen : Bool) (left : Node) :
    Parse Node :=
  loop
    (fun left => do
      if ← atMark ">" then modify fun r => r.reread r.lexed.asOperator
      operationAt g scope rank start leftParen left (← current).spelling)
    left

/-- An expression with operators of a rank above `rank`. -/
def binary (g : Level) (rank : Nat) (scope : Scope) : Parse Node := do
  let start ← start
  let leftParen ← atMark "("
  let left ←
    if scope.allowsIn && (← current) == .privateName then privateIn g scope else unary g scope
  operators g scope rank start leftParen left

/-- Nothing that a generator hands over begins with the lexeme. -/
def endsYield (l : Lexeme) : Bool :=
  l == .stop || l.isWord "in" || l.spelling ∈ [";", "\x7d", ")", "]", ":", ","]

/-- What a generator hands over, if it stands on the same line. -/
def yieldOperand (g : Level) (scope : Scope) : Parse Unit := do
  let scope := { scope with isGenerator := true }
  if !(← onNewLine) then
    if ← eat "*" then discard (g.assignment scope)
    else if !endsYield (← current) then discard (g.assignment scope)

/-- The handing over of a value by a generator. -/
def yieldExpression (g : Level) (scope : Scope) : Parse Node := do
  let start ← start
  advance
  noteIf !scope.isGenerator
  yieldOperand g scope
  node start (.other "YieldExpression")

/-- An expression that begins at offset `start` from the end of its left side on. -/
def assignmentFrom (g : Level) (scope : Scope) (start : Nat) (left : Node) : Parse Node := do
  let l ← current
  if l.isMark "=>" && left.name?.isSome then
    arrow
    arrowBody g scope start false [left]
  else if l.spelling ∈ assignmentOperators then
    let left ← if l.isMark "=" then target left else simpleTarget left
    advance
    let right ← g.assignment scope
    node start (.assignment l.spelling left right)
  else if ← eat "?" then
    let consequent ← g.assignment scope.withIn
    expect ":"
    let alternate ← g.assignment scope
    node start (.conditional left consequent alternate)
  else pure left

/-- An assignment, a condition, a function with an arrow, or an expression that binds more
tightly. -/
def assignment (g : Level) (scope : Scope) : Parse Node := do
  if ((← atWord "yield") && scope.isGenerator) || (← atWordWithOperand "yield") then
    yieldExpression g scope
  else
    match ← parenthesizedArrow? g scope with
    | some n => pure n
    | none =>
      match ← asyncArrow? g scope with
      | some n => pure n
      | none =>
        let start ← start
        let left ← binary g 0 scope
        assignmentFrom g scope start left

end Stencil.Script.Parse
