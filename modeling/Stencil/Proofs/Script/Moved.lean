import Stencil.Proofs.Script.Nesting

/-!
# Moved trees

A tree is moved along a map of spans: its nodes stay what they are, their spans are mapped, and
their numbers are forgotten.  Trees that are the same when they are moved along the identity differ
in the numbers of their nodes at most.
-/

namespace Stencil.Script

/-- The parts of a node of the given kind, from left to right. -/
def Kind.parts (kind : Kind Node) : List Node := kind.fields.flatMap fun f => f.2.filterMap id

theorem Node.parts_eq (n : Node) :
  n.parts = n.kind.parts
  := by
  rw [parts_of_kind rfl]
  cases n.kind with
  | other name => simp [Kind.parts, Kind.fields, Kind.field]
  | _ => rfl

mutual

/-- The tree along a map of spans, with all numbers zero. -/
def Node.moved (f : Span → Span) : Node → Node
  | .mk _ span kind => .mk 0 (f span) (kind.moved f)
  termination_by structural n => n

/-- The kind of a node with its parts along a map of spans. -/
def Kind.moved (f : Span → Span) : Kind Node → Kind Node
  | .program body => .program (movedAll f body)
  | .expressionStatement expression isDirective =>
    .expressionStatement (expression.moved f) isDirective
  | .blockStatement body => .blockStatement (movedAll f body)
  | .emptyStatement => .emptyStatement
  | .variableDeclaration kind declarations => .variableDeclaration kind (movedAll f declarations)
  | .variableDeclarator target init => .variableDeclarator (target.moved f) (movedOption f init)
  | .functionDeclaration name params body =>
    .functionDeclaration (movedOption f name) (movedAll f params) (body.moved f)
  | .ifStatement test consequent alternate =>
    .ifStatement (test.moved f) (consequent.moved f) (movedOption f alternate)
  | .switchStatement discriminant cases =>
    .switchStatement (discriminant.moved f) (movedAll f cases)
  | .switchCase test consequent => .switchCase (movedOption f test) (movedAll f consequent)
  | .forStatement init test step body =>
    .forStatement (movedOption f init) (movedOption f test) (movedOption f step) (body.moved f)
  | .forInStatement left right body =>
    .forInStatement (left.moved f) (right.moved f) (body.moved f)
  | .forOfStatement left right body =>
    .forOfStatement (left.moved f) (right.moved f) (body.moved f)
  | .whileStatement test body => .whileStatement (test.moved f) (body.moved f)
  | .doWhileStatement body test => .doWhileStatement (body.moved f) (test.moved f)
  | .tryStatement block handler finalizer =>
    .tryStatement (block.moved f) (movedOption f handler) (movedOption f finalizer)
  | .catchClause param body => .catchClause (movedOption f param) (body.moved f)
  | .breakStatement label => .breakStatement (movedOption f label)
  | .continueStatement label => .continueStatement (movedOption f label)
  | .returnStatement argument => .returnStatement (movedOption f argument)
  | .throwStatement argument => .throwStatement (argument.moved f)
  | .labeledStatement label body => .labeledStatement (label.moved f) (body.moved f)
  | .withStatement object body => .withStatement (object.moved f) (body.moved f)
  | .debuggerStatement => .debuggerStatement
  | .identifier name => .identifier name
  | .literal value raw => .literal value raw
  | .templateLiteral raw => .templateLiteral raw
  | .taggedTemplate tag quasi => .taggedTemplate (tag.moved f) (quasi.moved f)
  | .thisExpression => .thisExpression
  | .arrayExpression elements => .arrayExpression (movedOptions f elements)
  | .objectExpression properties => .objectExpression (movedAll f properties)
  | .property key value kind computed shorthand method =>
    .property (key.moved f) (value.moved f) kind computed shorthand method
  | .spreadElement argument => .spreadElement (argument.moved f)
  | .restElement argument => .restElement (argument.moved f)
  | .assignmentPattern left right => .assignmentPattern (left.moved f) (right.moved f)
  | .functionExpression name params body =>
    .functionExpression (movedOption f name) (movedAll f params) (body.moved f)
  | .arrowFunction params body isExpression =>
    .arrowFunction (movedAll f params) (body.moved f) isExpression
  | .unary operator argument => .unary operator (argument.moved f)
  | .update operator isLeading argument => .update operator isLeading (argument.moved f)
  | .binary operator left right => .binary operator (left.moved f) (right.moved f)
  | .logical operator left right => .logical operator (left.moved f) (right.moved f)
  | .assignment operator left right => .assignment operator (left.moved f) (right.moved f)
  | .conditional test consequent alternate =>
    .conditional (test.moved f) (consequent.moved f) (alternate.moved f)
  | .call callee arguments optional => .call (callee.moved f) (movedAll f arguments) optional
  | .new callee arguments => .new (callee.moved f) (movedAll f arguments)
  | .member object name computed optional =>
    .member (object.moved f) (name.moved f) computed optional
  | .sequence expressions => .sequence (movedAll f expressions)
  | .other typeName => .other typeName

/-- The trees of a list along a map of spans. -/
def movedAll (f : Span → Span) : List Node → List Node
  | [] => []
  | n :: rest => n.moved f :: movedAll f rest

/-- A tree that may be absent along a map of spans. -/
def movedOption (f : Span → Span) : Option Node → Option Node
  | none => none
  | some n => some (n.moved f)

/-- The trees of a list with gaps along a map of spans. -/
def movedOptions (f : Span → Span) : List (Option Node) → List (Option Node)
  | [] => []
  | n :: rest => movedOption f n :: movedOptions f rest

end

variable (f : Span → Span)

@[simp] theorem movedAll_eq_map (nodes : List Node) :
  movedAll f nodes = nodes.map (Node.moved f)
  := by
  induction nodes with
  | nil => rfl
  | cons n rest ih => rw [movedAll, ih, List.map_cons]

@[simp] theorem movedOption_eq_map (n : Option Node) :
  movedOption f n = n.map (Node.moved f)
  := by cases n <;> rfl

@[simp] theorem movedOptions_eq_map (nodes : List (Option Node)) :
  movedOptions f nodes = nodes.map (Option.map (Node.moved f))
  := by
  induction nodes with
  | nil => rfl
  | cons n rest ih => rw [movedOptions, ih, movedOption_eq_map, List.map_cons]

namespace Kind

@[simp] theorem typeName_moved (k : Kind Node) :
  (k.moved f).typeName = k.typeName
  := by cases k <;> rfl

variable {f} in
@[simp] theorem moved_eq_literal {k : Kind Node} {value : LiteralValue} {raw : Text} :
  k.moved f = .literal value raw ↔ k = .literal value raw
  := by cases k <;> simp [moved]

variable {f} in
@[simp] theorem moved_eq_templateLiteral {k : Kind Node} {raw : Text} :
  k.moved f = .templateLiteral raw ↔ k = .templateLiteral raw
  := by cases k <;> simp [moved]

variable {f} in
theorem exists_of_moved_program {k : Kind Node} {nodes : List Node}
    (h : k.moved f = .program nodes) :
  ∃ body, k = .program body ∧ body.map (Node.moved f) = nodes
  := by
  cases k with
  | program body =>
      rw [moved, movedAll_eq_map, program.injEq] at h
      exact ⟨body, rfl, h⟩
  | _ => cases h

variable {f} in
@[simp] theorem moved_eq_emptyStatement {k : Kind Node} :
  k.moved f = .emptyStatement ↔ k = .emptyStatement
  := by cases k <;> simp [moved]

variable {f} in
theorem exists_of_moved_expressionStatement {k : Kind Node} {x : Node}
    {isDirective : Bool} (h : k.moved f = .expressionStatement x isDirective) :
  ∃ y, k = .expressionStatement y isDirective ∧ y.moved f = x
  := by
  cases k with
  | expressionStatement y =>
      rw [moved, expressionStatement.injEq] at h
      obtain ⟨rfl, rfl⟩ := h
      exact ⟨y, rfl, rfl⟩
  | _ => cases h

theorem parts_moved (k : Kind Node) :
  (k.moved f).parts = k.parts.map (Node.moved f)
  := by
  have hoption (n : Option Node) :
      [n.map (Node.moved f)].filterMap (fun m => m)
        = [n].filterMap fun m => m.map (Node.moved f) := by
    cases n <;> rfl
  cases k <;>
    simp [moved, parts, fields, List.filterMap_map, Function.comp_def, List.map_filterMap, hoption]

end Kind

namespace Node

@[simp] theorem span_moved (n : Node) :
  (n.moved f).span = f n.span
  := by
  cases n
  rfl

@[simp] theorem kind_moved (n : Node) :
  (n.moved f).kind = n.kind.moved f
  := by
  cases n
  rfl

@[simp] theorem typeName_moved (n : Node) :
  (n.moved f).typeName = n.typeName
  := by rw [typeName, kind_moved, Kind.typeName_moved, typeName]

@[simp] theorem name?_moved (n : Node) :
  (n.moved f).name? = n.name?
  := by
  obtain ⟨i, span, kind⟩ := n
  cases kind <;> rfl

theorem parts_moved (n : Node) :
  (n.moved f).parts = n.parts.map (Node.moved f)
  := by rw [parts_eq, parts_eq, kind_moved, Kind.parts_moved]

theorem preorder_moved (n : Node) :
  (n.moved f).preorder = n.preorder.map (Node.moved f)
  := by
  induction n using inductionOnParts with
  | step n ih =>
      rw [preorder_eq, preorder_eq, parts_moved, List.map_cons, List.map_flatMap, List.flatMap_map]
      congr 1
      apply List.flatMap_congr ih

end Node

theorem moved_mk_eq_iff {i j : Nat} {s t : Span} {k l : Kind Node} :
  (Node.mk i s k).moved id = (Node.mk j t l).moved id ↔ s = t ∧ k.moved id = l.moved id
  := by simp [Node.moved]

/-- Trees that differ in the numbers of their nodes only have the same spans. -/
theorem spans_of_moved {n m : Node} (h : m.moved id = n.moved id) :
  m.preorder.map Node.span = n.preorder.map Node.span
  := by
  have hspans (k : Node) : k.preorder.map Node.span = (k.moved id).preorder.map Node.span := by
    rw [Node.preorder_moved, List.map_map]
    apply List.map_congr_left
    intro l _
    exact (Node.span_moved id l).symm
  rw [hspans, h, ← hspans]

end Stencil.Script
