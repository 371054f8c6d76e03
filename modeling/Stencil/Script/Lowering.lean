import Stencil.Script.Fault
import Stencil.Script.Tree

/-!
# Lowering

The grammar yields trees whose nodes have no identity.  Lowering goes through such a tree and
builds it anew, construct by construct, and gives each node that it makes the next number.  A node
is made after its parts, in the order in which the construct takes them up; there is no later pass
that would correct a number.

On the way the statements and expressions around a place are counted, and no more than
`nestingLimit` of them may lie within each other.  What only gives a name or a target does not
count, nor do the blocks and clauses that belong to a statement and the directives at the beginning
of a function.
-/

namespace Stencil.Script

/-- How far lowering has come: the number of the next node and how many statements and expressions
lie around the place. -/
structure Lowering where
  nextId : UInt32 := 0
  depth : Nat := 0

/-- A computation that makes nodes. -/
abbrev Lower (α : Type) := StateT Lowering (Except Fault) α

namespace Lower

/-- Makes a node.  The numbers have 32 bits, and it is a fault to count beyond them. -/
def node (span : Span) (kind : Kind Node) : Lower Node := fun s =>
  if s.nextId.toNat + 1 < UInt32.size then
    .ok (.mk s.nextId.toNat span kind, { s with nextId := s.nextId + 1 })
  else .error .overflow

/-- Lowers a statement or an expression one level deeper. -/
def nested (span : Span) (lower : Lower Node) : Lower Node := fun s =>
  if s.depth < nestingLimit then do
    let (n, t) ← lower { s with depth := s.depth + 1 }
    .ok (n, { t with depth := t.depth - 1 })
  else .error (.nesting span)

/-- The grammar puts no such node in this place. -/
def misplaced {α : Type} : Lower α := throw .other

/-- Lowers a name, or a leaf that no analysis looks into. -/
def leaf : Node → Lower Node
  | .mk _ span (.identifier name) => node span (.identifier name)
  | .mk _ span (.other typeName) => node span (.other typeName)
  | _ => misplaced

/-- Lowers a name that may be absent. -/
def optionalName : Option Node → Lower (Option Node)
  | none => pure none
  | some n => do
    let n ← leaf n
    pure (some n)

/-- Lowers a string that is a directive. -/
def directiveText : Node → Lower Node
  | .mk _ span (.literal value raw) => node span (.literal value raw)
  | _ => misplaced

/-- Lowers a template to which a function is applied. -/
def quasi : Node → Lower Node
  | .mk _ span (.templateLiteral raw) => node span (.templateLiteral raw)
  | _ => misplaced

/-- A member of an object, given how the object and the name are lowered. -/
def member (span : Span) (object name : Lower Node) (computed optional : Bool) : Lower Node := do
  let object ← object
  let name ← name
  node span (.member object name computed optional)

/-- A declaration of variables, given how its declarators are lowered. -/
def variableDeclaration (span : Span) (kind : DeclarationKind) (declarators : Lower (List Node)) :
    Lower Node := do
  let declarations ← declarators
  node span (.variableDeclaration kind declarations)

mutual

/-- Lowers a statement. -/
def statement : Node → Lower Node
  | .mk _ span kind => nested span (statementOfKind span kind)
  termination_by structural n => n

/-- Lowers a statement of the given kind. -/
def statementOfKind (span : Span) : Kind Node → Lower Node
  | .expressionStatement e isDirective => do
    let e ← expression e
    node span (.expressionStatement e isDirective)
  | .blockStatement body => do
    let body ← statements body
    node span (.blockStatement body)
  | .emptyStatement => node span .emptyStatement
  | .debuggerStatement => node span .debuggerStatement
  | .variableDeclaration kind items => variableDeclaration span kind (declarators items)
  | .functionDeclaration name params body => do
    let name ← optionalName name
    let params ← parameters params
    let body ← functionBody body
    node span (.functionDeclaration name params body)
  | .ifStatement test consequent alternate => do
    let test ← expression test
    let consequent ← statement consequent
    let alternate ← optionalStatement alternate
    node span (.ifStatement test consequent alternate)
  | .switchStatement discriminant cases => do
    let discriminant ← expression discriminant
    let cases ← switchCases cases
    node span (.switchStatement discriminant cases)
  | .forStatement init test step body => do
    let init ← loopInit init
    let test ← optional test
    let step ← optional step
    let body ← statement body
    node span (.forStatement init test step body)
  | .forInStatement left right body => do
    let left ← loopTarget left
    let right ← expression right
    let body ← statement body
    node span (.forInStatement left right body)
  | .forOfStatement left right body => do
    let left ← loopTarget left
    let right ← expression right
    let body ← statement body
    node span (.forOfStatement left right body)
  | .whileStatement test body => do
    let test ← expression test
    let body ← statement body
    node span (.whileStatement test body)
  | .doWhileStatement body test => do
    let body ← statement body
    let test ← expression test
    node span (.doWhileStatement body test)
  | .tryStatement body handler finalizer => do
    let body ← block body
    let handler ← catchClause handler
    let finalizer ← optionalBlock finalizer
    node span (.tryStatement body handler finalizer)
  | .breakStatement label => do
    let label ← optionalName label
    node span (.breakStatement label)
  | .continueStatement label => do
    let label ← optionalName label
    node span (.continueStatement label)
  | .returnStatement argument => do
    let argument ← optional argument
    node span (.returnStatement argument)
  | .throwStatement argument => do
    let argument ← expression argument
    node span (.throwStatement argument)
  | .labeledStatement label body => do
    let label ← leaf label
    let body ← statement body
    node span (.labeledStatement label body)
  | .withStatement object body => do
    let object ← expression object
    let body ← statement body
    node span (.withStatement object body)
  | .other typeName => node span (.other typeName)
  | _ => misplaced

/-- Lowers the statements of a list. -/
def statements : List Node → Lower (List Node)
  | [] => pure []
  | n :: rest => do
    let n ← statement n
    let rest ← statements rest
    pure (n :: rest)

/-- Lowers a statement that may be absent. -/
def optionalStatement : Option Node → Lower (Option Node)
  | none => pure none
  | some n => do
    let n ← statement n
    pure (some n)

/-- Lowers a block that belongs to a statement. -/
def block : Node → Lower Node
  | .mk _ span (.blockStatement body) => do
    let body ← statements body
    node span (.blockStatement body)
  | _ => misplaced

/-- Lowers a block that may be absent. -/
def optionalBlock : Option Node → Lower (Option Node)
  | none => pure none
  | some n => do
    let n ← block n
    pure (some n)

/-- Lowers what is done about an error. -/
def catchClause : Option Node → Lower (Option Node)
  | none => pure none
  | some (.mk _ span (.catchClause param body)) => do
    let param ← optionalBinding param
    let body ← block body
    let n ← node span (.catchClause param body)
    pure (some n)
  | some _ => misplaced

/-- Lowers the cases of a switch. -/
def switchCases : List Node → Lower (List Node)
  | [] => pure []
  | .mk _ span (.switchCase test consequent) :: rest => do
    let test ← optional test
    let consequent ← statements consequent
    let n ← node span (.switchCase test consequent)
    let rest ← switchCases rest
    pure (n :: rest)
  | _ :: _ => misplaced

/-- Lowers the declarators of a declaration. -/
def declarators : List Node → Lower (List Node)
  | [] => pure []
  | .mk _ span (.variableDeclarator target init) :: rest => do
    let target ← binding target
    let init ← optional init
    let n ← node span (.variableDeclarator target init)
    let rest ← declarators rest
    pure (n :: rest)
  | _ :: _ => misplaced

/-- Lowers what stands at the beginning of the head of a loop. -/
def loopInit : Option Node → Lower (Option Node)
  | none => pure none
  | some (.mk _ span (.variableDeclaration kind items)) => do
    let n ← variableDeclaration span kind (declarators items)
    pure (some n)
  | some n => do
    let n ← expression n
    pure (some n)

/-- Lowers what a loop over keys or elements assigns to. -/
def loopTarget : Node → Lower Node
  | .mk _ span (.variableDeclaration kind items) =>
    variableDeclaration span kind (declarators items)
  | .mk _ span (.member object name computed optional) =>
    member span (expression object) (if computed then expression name else leaf name)
      computed optional
  | n => leaf n

/-- Lowers statements that may begin with directives. -/
def body : List Node → Lower (List Node)
  | [] => pure []
  | .mk _ span (.expressionStatement text true) :: rest => do
    let text ← directiveText text
    let n ← node span (.expressionStatement text true)
    let rest ← body rest
    pure (n :: rest)
  | n :: rest => do
    let n ← statement n
    let rest ← body rest
    pure (n :: rest)

/-- Lowers the body of a function. -/
def functionBody : Node → Lower Node
  | .mk _ span (.blockStatement items) => do
    let items ← body items
    node span (.blockStatement items)
  | _ => misplaced

/-- Lowers the parameters of a function. -/
def parameters : List Node → Lower (List Node)
  | [] => pure []
  | .mk _ span (.restElement argument) :: rest => do
    let argument ← binding argument
    let n ← node span (.restElement argument)
    let rest ← parameters rest
    pure (n :: rest)
  | n :: rest => do
    let n ← binding n
    let rest ← parameters rest
    pure (n :: rest)

/-- Lowers a binding. -/
def binding : Node → Lower Node
  | .mk _ span (.assignmentPattern left right) => do
    let left ← binding left
    let right ← expression right
    node span (.assignmentPattern left right)
  | n => leaf n

/-- Lowers a binding that may be absent. -/
def optionalBinding : Option Node → Lower (Option Node)
  | none => pure none
  | some n => do
    let n ← binding n
    pure (some n)

/-- Lowers an expression. -/
def expression : Node → Lower Node
  | .mk _ span kind => nested span (expressionOfKind span kind)

/-- Lowers an expression that may be absent. -/
def optional : Option Node → Lower (Option Node)
  | none => pure none
  | some n => do
    let n ← expression n
    pure (some n)

/-- Lowers an expression of the given kind. -/
def expressionOfKind (span : Span) : Kind Node → Lower Node
  | .literal value raw => node span (.literal value raw)
  | .templateLiteral raw => node span (.templateLiteral raw)
  | .identifier name => node span (.identifier name)
  | .thisExpression => node span .thisExpression
  | .arrayExpression items => do
    let items ← elements items
    node span (.arrayExpression items)
  | .objectExpression items => do
    let items ← properties items
    node span (.objectExpression items)
  | .functionExpression name params body => do
    let name ← optionalName name
    let params ← parameters params
    let body ← functionBody body
    node span (.functionExpression name params body)
  | .arrowFunction params body isExpression => do
    let params ← parameters params
    let body ← if isExpression then expression body else functionBody body
    node span (.arrowFunction params body isExpression)
  | .unary operator argument => do
    let argument ← expression argument
    node span (.unary operator argument)
  | .update operator isLeading argument => do
    let argument ← target argument
    node span (.update operator isLeading argument)
  | .binary operator left right => do
    let left ← expression left
    let right ← expression right
    node span (.binary operator left right)
  | .logical operator left right => do
    let left ← expression left
    let right ← expression right
    node span (.logical operator left right)
  | .assignment operator left right => do
    let left ← target left
    let right ← expression right
    node span (.assignment operator left right)
  | .conditional test consequent alternate => do
    let test ← expression test
    let consequent ← expression consequent
    let alternate ← expression alternate
    node span (.conditional test consequent alternate)
  | .call callee items optional => do
    let callee ← expression callee
    let items ← arguments items
    node span (.call callee items optional)
  | .new callee items => do
    let callee ← expression callee
    let items ← arguments items
    node span (.new callee items)
  | .member object name computed optional =>
    member span (expression object) (if computed then expression name else leaf name)
      computed optional
  | .sequence items => do
    let items ← expressions items
    node span (.sequence items)
  | .taggedTemplate tag text => do
    let tag ← expression tag
    let text ← quasi text
    node span (.taggedTemplate tag text)
  | .other typeName => node span (.other typeName)
  | _ => misplaced

/-- Lowers the expressions of a list. -/
def expressions : List Node → Lower (List Node)
  | [] => pure []
  | n :: rest => do
    let n ← expression n
    let rest ← expressions rest
    pure (n :: rest)

/-- Lowers the elements of an array. -/
def elements : List (Option Node) → Lower (List (Option Node))
  | [] => pure []
  | none :: rest => do
    let rest ← elements rest
    pure (none :: rest)
  | some (.mk _ span (.spreadElement argument)) :: rest => do
    let argument ← expression argument
    let n ← node span (.spreadElement argument)
    let rest ← elements rest
    pure (some n :: rest)
  | some n :: rest => do
    let n ← expression n
    let rest ← elements rest
    pure (some n :: rest)

/-- Lowers the properties of an object.  A name that is not computed is no expression. -/
def properties : List Node → Lower (List Node)
  | [] => pure []
  | .mk _ span (.property key value kind computed shorthand method) :: rest => do
    let key ← (if computed || key.name?.isNone then expression key else leaf key)
    let value ← expression value
    let n ← node span (.property key value kind computed shorthand method)
    let rest ← properties rest
    pure (n :: rest)
  | .mk _ span (.spreadElement argument) :: rest => do
    let argument ← expression argument
    let n ← node span (.spreadElement argument)
    let rest ← properties rest
    pure (n :: rest)
  | _ :: _ => misplaced

/-- Lowers the arguments of a call. -/
def arguments : List Node → Lower (List Node)
  | [] => pure []
  | .mk _ span (.spreadElement argument) :: rest => do
    let argument ← expression argument
    let n ← node span (.spreadElement argument)
    let rest ← arguments rest
    pure (n :: rest)
  | n :: rest => do
    let n ← expression n
    let rest ← arguments rest
    pure (n :: rest)

/-- Lowers what is assigned to or counted. -/
def target : Node → Lower Node
  | .mk _ span (.member object name computed optional) =>
    member span (expression object) (if computed then expression name else leaf name)
      computed optional
  | n => leaf n

end

/-- Lowers a program. -/
def program : Node → Lower Node
  | .mk _ span (.program items) => do
    let items ← body items
    node span (.program items)
  | _ => misplaced

end Lower

/-- The program of a tree of the grammar, with its nodes numbered from zero. -/
def Node.lowered (n : Node) : Except Fault Node := (·.1) <$> (Lower.program n).run {}

end Stencil.Script
