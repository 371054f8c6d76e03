import Stencil.Text.Span
import Stencil.Outline

/-!
# Syntax trees of scripts

A node of a syntax tree has an identity, a span and a kind.  `Kind ν` is the type of kinds of
nodes whose immediate parts are of type `ν`, and `Node` ties the knot.  Constructs that no
analysis looks into, such as classes and destructuring patterns, are leaves of the kind `other`.

Every part of a node stands in a field.  `Kind.fields` lists the fields with their parts and
`visitorKeys` the names of the fields, type by type, in the order in which they are visited.
-/

namespace Stencil.Script

/-- The keywords that introduce a variable declaration. -/
inductive DeclarationKind where
  | var
  | let
  | const
  deriving DecidableEq, Repr, Inhabited

/-- The keyword of a declaration. -/
def DeclarationKind.name : DeclarationKind → String
  | var => "var"
  | .let => "let"
  | const => "const"

/-- The kinds of properties of an object. -/
inductive PropertyKind where
  | init
  | get
  | set
  deriving DecidableEq, Repr, Inhabited

/-- The name of a kind of property. -/
def PropertyKind.name : PropertyKind → String
  | init => "init"
  | get => "get"
  | set => "set"

/-- The value of a literal.  A number is kept as it is written. -/
inductive LiteralValue where
  | string (value : Text)
  | number (raw : Text)
  | boolean (value : Bool)
  | null
  | regex (pattern flags : Text)
  deriving DecidableEq, Repr, Inhabited

/-- The kinds of nodes with parts of type `ν`. -/
inductive Kind (ν : Type) where
  | program (body : List ν)
  | expressionStatement (expression : ν) (isDirective : Bool)
  | blockStatement (body : List ν)
  | emptyStatement
  | variableDeclaration (kind : DeclarationKind) (declarations : List ν)
  | variableDeclarator (target : ν) (init : Option ν)
  | functionDeclaration (name : Option ν) (params : List ν) (body : ν)
  | ifStatement (test consequent : ν) (alternate : Option ν)
  | switchStatement (discriminant : ν) (cases : List ν)
  | switchCase (test : Option ν) (consequent : List ν)
  | forStatement (init test step : Option ν) (body : ν)
  | forInStatement (left right body : ν)
  | forOfStatement (left right body : ν)
  | whileStatement (test body : ν)
  | doWhileStatement (body test : ν)
  | tryStatement (block : ν) (handler finalizer : Option ν)
  | catchClause (param : Option ν) (body : ν)
  | breakStatement (label : Option ν)
  | continueStatement (label : Option ν)
  | returnStatement (argument : Option ν)
  | throwStatement (argument : ν)
  | labeledStatement (label body : ν)
  | withStatement (object body : ν)
  | debuggerStatement
  | identifier (name : Text)
  | literal (value : LiteralValue) (raw : Text)
  | templateLiteral (raw : Text)
  | taggedTemplate (tag quasi : ν)
  | thisExpression
  | arrayExpression (elements : List (Option ν))
  | objectExpression (properties : List ν)
  | property (key value : ν) (kind : PropertyKind) (computed shorthand method : Bool)
  | spreadElement (argument : ν)
  | restElement (argument : ν)
  | assignmentPattern (left right : ν)
  | functionExpression (name : Option ν) (params : List ν) (body : ν)
  | arrowFunction (params : List ν) (body : ν) (isExpression : Bool)
  | unary (operator : String) (argument : ν)
  | update (operator : String) (isLeading : Bool) (argument : ν)
  | binary (operator : String) (left right : ν)
  | logical (operator : String) (left right : ν)
  | assignment (operator : String) (left right : ν)
  | conditional (test consequent alternate : ν)
  | call (callee : ν) (arguments : List ν) (optional : Bool)
  | new (callee : ν) (arguments : List ν)
  | member (object name : ν) (computed optional : Bool)
  | sequence (expressions : List ν)
  | other (typeName : String)

namespace Kind

variable {ν : Type}

/-- The name of the type of a node. -/
def typeName : Kind ν → String
  | program .. => "Program"
  | expressionStatement .. => "ExpressionStatement"
  | blockStatement .. => "BlockStatement"
  | emptyStatement => "EmptyStatement"
  | variableDeclaration .. => "VariableDeclaration"
  | variableDeclarator .. => "VariableDeclarator"
  | functionDeclaration .. => "FunctionDeclaration"
  | ifStatement .. => "IfStatement"
  | switchStatement .. => "SwitchStatement"
  | switchCase .. => "SwitchCase"
  | forStatement .. => "ForStatement"
  | forInStatement .. => "ForInStatement"
  | forOfStatement .. => "ForOfStatement"
  | whileStatement .. => "WhileStatement"
  | doWhileStatement .. => "DoWhileStatement"
  | tryStatement .. => "TryStatement"
  | catchClause .. => "CatchClause"
  | breakStatement .. => "BreakStatement"
  | continueStatement .. => "ContinueStatement"
  | returnStatement .. => "ReturnStatement"
  | throwStatement .. => "ThrowStatement"
  | labeledStatement .. => "LabeledStatement"
  | withStatement .. => "WithStatement"
  | debuggerStatement => "DebuggerStatement"
  | identifier .. => "Identifier"
  | literal .. => "Literal"
  | templateLiteral .. => "TemplateLiteral"
  | taggedTemplate .. => "TaggedTemplateExpression"
  | thisExpression => "ThisExpression"
  | arrayExpression .. => "ArrayExpression"
  | objectExpression .. => "ObjectExpression"
  | property .. => "Property"
  | spreadElement .. => "SpreadElement"
  | restElement .. => "RestElement"
  | assignmentPattern .. => "AssignmentPattern"
  | functionExpression .. => "FunctionExpression"
  | arrowFunction .. => "ArrowFunctionExpression"
  | unary .. => "UnaryExpression"
  | update .. => "UpdateExpression"
  | binary .. => "BinaryExpression"
  | logical .. => "LogicalExpression"
  | assignment .. => "AssignmentExpression"
  | conditional .. => "ConditionalExpression"
  | call .. => "CallExpression"
  | new .. => "NewExpression"
  | member .. => "MemberExpression"
  | sequence .. => "SequenceExpression"
  | other name => name

/-- The fields of a node with their parts.  An array may hold gaps. -/
@[reducible] def fields : Kind ν → List (String × List (Option ν))
  | program body => [("body", body.map some)]
  | expressionStatement expression _ => [("expression", [some expression])]
  | blockStatement body => [("body", body.map some)]
  | emptyStatement => []
  | variableDeclaration _ declarations => [("declarations", declarations.map some)]
  | variableDeclarator target init => [("id", [some target]), ("init", [init])]
  | functionDeclaration name params body =>
    [("id", [name]), ("params", params.map some), ("body", [some body])]
  | ifStatement test consequent alternate =>
    [("test", [some test]), ("consequent", [some consequent]), ("alternate", [alternate])]
  | switchStatement discriminant cases =>
    [("discriminant", [some discriminant]), ("cases", cases.map some)]
  | switchCase test consequent => [("test", [test]), ("consequent", consequent.map some)]
  | forStatement init test step body =>
    [("init", [init]), ("test", [test]), ("update", [step]), ("body", [some body])]
  | forInStatement left right body =>
    [("left", [some left]), ("right", [some right]), ("body", [some body])]
  | forOfStatement left right body =>
    [("left", [some left]), ("right", [some right]), ("body", [some body])]
  | whileStatement test body => [("test", [some test]), ("body", [some body])]
  | doWhileStatement body test => [("body", [some body]), ("test", [some test])]
  | tryStatement block handler finalizer =>
    [("block", [some block]), ("handler", [handler]), ("finalizer", [finalizer])]
  | catchClause param body => [("param", [param]), ("body", [some body])]
  | breakStatement label => [("label", [label])]
  | continueStatement label => [("label", [label])]
  | returnStatement argument => [("argument", [argument])]
  | throwStatement argument => [("argument", [some argument])]
  | labeledStatement label body => [("label", [some label]), ("body", [some body])]
  | withStatement object body => [("object", [some object]), ("body", [some body])]
  | debuggerStatement => []
  | identifier _ => []
  | literal _ _ => []
  | templateLiteral _ => []
  | taggedTemplate tag quasi => [("tag", [some tag]), ("quasi", [some quasi])]
  | thisExpression => []
  | arrayExpression elements => [("elements", elements)]
  | objectExpression properties => [("properties", properties.map some)]
  | property key value _ _ _ _ => [("key", [some key]), ("value", [some value])]
  | spreadElement argument => [("argument", [some argument])]
  | restElement argument => [("argument", [some argument])]
  | assignmentPattern left right => [("left", [some left]), ("right", [some right])]
  | functionExpression name params body =>
    [("id", [name]), ("params", params.map some), ("body", [some body])]
  | arrowFunction params body _ => [("params", params.map some), ("body", [some body])]
  | unary _ argument => [("argument", [some argument])]
  | update _ _ argument => [("argument", [some argument])]
  | binary _ left right => [("left", [some left]), ("right", [some right])]
  | logical _ left right => [("left", [some left]), ("right", [some right])]
  | assignment _ left right => [("left", [some left]), ("right", [some right])]
  | conditional test consequent alternate =>
    [("test", [some test]), ("consequent", [some consequent]), ("alternate", [some alternate])]
  | call callee arguments _ => [("callee", [some callee]), ("arguments", arguments.map some)]
  | new callee arguments => [("callee", [some callee]), ("arguments", arguments.map some)]
  | member object name _ _ => [("object", [some object]), ("property", [some name])]
  | sequence expressions => [("expressions", expressions.map some)]
  | other _ => []

/-- The parts in a field.  A field that the node does not have holds nothing. -/
def field (k : Kind ν) (key : String) : List ν :=
  ((k.fields.lookup key).getD []).filterMap id

/-- A part is smaller than what it is a part of. -/
theorem sizeOf_lt_of_mem_field [SizeOf ν] {k : Kind ν} {key : String} {n : ν}
    (h : n ∈ k.field key) :
  sizeOf n < sizeOf k
  := by
  have hf : ∃ f ∈ k.fields, some n ∈ f.2 := by
    simp only [field, List.mem_filterMap, id_eq, exists_eq_right] at h
    cases hl : k.fields.lookup key with
    | none => simp [hl] at h
    | some l =>
      rw [hl, Option.getD_some] at h
      obtain ⟨before, after, hk, -⟩ := List.lookup_eq_some_iff.mp hl
      exact ⟨(key, l), by rw [hk]; simp, h⟩
  obtain ⟨f, hf, hn⟩ := hf
  have mem_lt (m : ν) (l : List ν) (h : m ∈ l) : sizeOf m < sizeOf l := List.sizeOf_lt_of_mem h
  have some_lt (m : ν) (l : List (Option ν)) (h : some m ∈ l) : sizeOf m < sizeOf l := by
    have := List.sizeOf_lt_of_mem h
    simp only [Option.some.sizeOf_spec] at this
    omega
  cases k <;> grind

end Kind

/-- A node of a syntax tree. -/
inductive Node where
  | mk (id : Nat) (span : Span) (kind : Kind Node)

namespace Node

/-- The identity of a node. -/
def id : Node → Nat
  | mk id _ _ => id

/-- The span of a node. -/
def span : Node → Span
  | mk _ span _ => span

/-- The kind of a node. -/
def kind : Node → Kind Node
  | mk _ _ kind => kind

/-- The name of the type of a node. -/
def typeName (n : Node) : String := n.kind.typeName

/-- The parts in a field of a node. -/
def field (n : Node) (key : String) : List Node := n.kind.field key

theorem sizeOf_lt_of_mem_field {n m : Node} {key : String} (h : m ∈ n.field key) :
  sizeOf m < sizeOf n
  := by
  cases n with
  | mk id span kind =>
    have h := Kind.sizeOf_lt_of_mem_field h
    simp only [Node.kind] at h
    simp only [mk.sizeOf_spec]
    omega

/-- The piece of the source that a node covers. -/
def text (n : Node) (source : Text) : Text := n.span.text source

/-- The node may stand in a list of statements. -/
def isStatement (n : Node) : Bool :=
  n.typeName.endsWith "Statement" || n.typeName.endsWith "Declaration"

/-- The node stands for a value. -/
def isExpression (n : Node) : Bool :=
  !n.isStatement &&
    match n.kind with
    | .program .. => false
    | .switchCase .. => false
    | .catchClause .. => false
    | .variableDeclarator .. => false
    | .property .. => false
    | .spreadElement .. => false
    | .restElement .. => false
    | .assignmentPattern .. => false
    | .other name => !name.endsWith "Pattern"
    | _ => true

/-- The name of an identifier. -/
def name? (n : Node) : Option Text :=
  match n.kind with
  | .identifier name => some name
  | _ => none

end Node

/-- The names of the fields that are visited, by the name of the type. -/
def visitorKeys : Keys :=
  [
    ("Program", ["body"]),
    ("ExpressionStatement", ["expression"]),
    ("BlockStatement", ["body"]),
    ("VariableDeclaration", ["declarations"]),
    ("VariableDeclarator", ["id", "init"]),
    ("FunctionDeclaration", ["id", "params", "body"]),
    ("IfStatement", ["test", "consequent", "alternate"]),
    ("SwitchStatement", ["discriminant", "cases"]),
    ("SwitchCase", ["test", "consequent"]),
    ("ForStatement", ["init", "test", "update", "body"]),
    ("ForInStatement", ["left", "right", "body"]),
    ("ForOfStatement", ["left", "right", "body"]),
    ("WhileStatement", ["test", "body"]),
    ("DoWhileStatement", ["body", "test"]),
    ("TryStatement", ["block", "handler", "finalizer"]),
    ("CatchClause", ["param", "body"]),
    ("BreakStatement", ["label"]),
    ("ContinueStatement", ["label"]),
    ("ReturnStatement", ["argument"]),
    ("ThrowStatement", ["argument"]),
    ("LabeledStatement", ["label", "body"]),
    ("WithStatement", ["object", "body"]),
    ("TaggedTemplateExpression", ["tag", "quasi"]),
    ("ArrayExpression", ["elements"]),
    ("ObjectExpression", ["properties"]),
    ("Property", ["key", "value"]),
    ("SpreadElement", ["argument"]),
    ("RestElement", ["argument"]),
    ("AssignmentPattern", ["left", "right"]),
    ("FunctionExpression", ["id", "params", "body"]),
    ("ArrowFunctionExpression", ["params", "body"]),
    ("UnaryExpression", ["argument"]),
    ("UpdateExpression", ["argument"]),
    ("BinaryExpression", ["left", "right"]),
    ("LogicalExpression", ["left", "right"]),
    ("AssignmentExpression", ["left", "right"]),
    ("ConditionalExpression", ["test", "consequent", "alternate"]),
    ("CallExpression", ["callee", "arguments"]),
    ("NewExpression", ["callee", "arguments"]),
    ("MemberExpression", ["object", "property"]),
    ("SequenceExpression", ["expressions"])
  ]

/-- The outline of a tree under a table of keys. -/
def Node.outline (keys : Keys) (n : Node) : Outline Node :=
  .node n <| (keys.fieldsOf n.typeName).flatMap fun key =>
    (n.field key).attach.map fun m => outline keys m.1
  termination_by n
  decreasing_by exact sizeOf_lt_of_mem_field m.2

/-- The nodes of a tree, each before its parts and the parts from left to right. -/
def Node.preorder (n : Node) : List Node := (n.outline visitorKeys).values

end Stencil.Script
