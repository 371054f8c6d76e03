import Stencil.Proofs.Script.Numbering

/-!
# Shapes of trees

The shape of a tree is what remains of it when it is forgotten where its nodes stand and which
numbers they have.  Literals with the same value have the same shape, however they are written.
-/

namespace Stencil.Script

/-- The kind of a node without its parts. -/
def Kind.label {ν : Type} : Kind ν → Kind Unit
  | program body => .program (body.map fun _ => ())
  | expressionStatement _ isDirective => .expressionStatement () isDirective
  | blockStatement body => .blockStatement (body.map fun _ => ())
  | emptyStatement => .emptyStatement
  | variableDeclaration kind declarations =>
    .variableDeclaration kind (declarations.map fun _ => ())
  | variableDeclarator _ init => .variableDeclarator () (init.map fun _ => ())
  | functionDeclaration name params _ =>
    .functionDeclaration (name.map fun _ => ()) (params.map fun _ => ()) ()
  | ifStatement _ _ alternate => .ifStatement () () (alternate.map fun _ => ())
  | switchStatement _ cases => .switchStatement () (cases.map fun _ => ())
  | switchCase test consequent => .switchCase (test.map fun _ => ()) (consequent.map fun _ => ())
  | forStatement init test step _ =>
    .forStatement (init.map fun _ => ()) (test.map fun _ => ()) (step.map fun _ => ()) ()
  | forInStatement _ _ _ => .forInStatement () () ()
  | forOfStatement _ _ _ => .forOfStatement () () ()
  | whileStatement _ _ => .whileStatement () ()
  | doWhileStatement _ _ => .doWhileStatement () ()
  | tryStatement _ handler finalizer =>
    .tryStatement () (handler.map fun _ => ()) (finalizer.map fun _ => ())
  | catchClause param _ => .catchClause (param.map fun _ => ()) ()
  | breakStatement label => .breakStatement (label.map fun _ => ())
  | continueStatement label => .continueStatement (label.map fun _ => ())
  | returnStatement argument => .returnStatement (argument.map fun _ => ())
  | throwStatement _ => .throwStatement ()
  | labeledStatement _ _ => .labeledStatement () ()
  | withStatement _ _ => .withStatement () ()
  | debuggerStatement => .debuggerStatement
  | identifier name => .identifier name
  | literal value _ => .literal value []
  | templateLiteral raw => .templateLiteral raw
  | taggedTemplate _ _ => .taggedTemplate () ()
  | thisExpression => .thisExpression
  | arrayExpression elements => .arrayExpression (elements.map (Option.map fun _ => ()))
  | objectExpression properties => .objectExpression (properties.map fun _ => ())
  | property _ _ kind computed shorthand method => .property () () kind computed shorthand method
  | spreadElement _ => .spreadElement ()
  | restElement _ => .restElement ()
  | assignmentPattern _ _ => .assignmentPattern () ()
  | functionExpression name params _ =>
    .functionExpression (name.map fun _ => ()) (params.map fun _ => ()) ()
  | arrowFunction params _ isExpression => .arrowFunction (params.map fun _ => ()) () isExpression
  | unary operator _ => .unary operator ()
  | update operator isLeading _ => .update operator isLeading ()
  | binary operator _ _ => .binary operator () ()
  | logical operator _ _ => .logical operator () ()
  | assignment operator _ _ => .assignment operator () ()
  | conditional _ _ _ => .conditional () () ()
  | call _ arguments optional => .call () (arguments.map fun _ => ()) optional
  | new _ arguments => .new () (arguments.map fun _ => ())
  | member _ _ computed optional => .member () () computed optional
  | sequence expressions => .sequence (expressions.map fun _ => ())
  | other name => .other name

/-- A tree in which no node has a place or a number. -/
inductive Shape where
  | node (label : Kind Unit) (parts : List Shape)

/-- The shape of a tree. -/
def Node.shape (n : Node) : Shape :=
  .node n.kind.label (n.parts.attach.map fun m => m.1.shape)
  termination_by n
  decreasing_by apply sizeOf_lt_of_mem_parts m.2

theorem Node.shape_eq (n : Node) :
  n.shape = .node n.kind.label (n.parts.map shape)
  := by
  rw [shape, List.attach_map_val]

/-- Where the parts of a node stand makes no difference to what it is without them. -/
@[simp] theorem Kind.label_moved (f : Span → Span) (k : Kind Node) :
  (k.moved f).label = k.label
  := by cases k <;> simp [moved, label, Function.comp_def]

/-- Where a tree stands makes no difference to its shape. -/
@[simp] theorem Node.shape_moved (f : Span → Span) (n : Node) :
  (n.moved f).shape = n.shape
  := by
  induction n using inductionOnParts with
  | step n ih =>
      rw [shape_eq, shape_eq, kind_moved, Kind.label_moved, parts_moved, List.map_map]
      congr 1
      apply List.map_congr_left ih

/-- Trees that are the same at the same place have the same shape. -/
theorem shape_eq_of_moved {f g : Span → Span} {n m : Node} (h : m.moved f = n.moved g) :
  m.shape = n.shape
  := by rw [← Node.shape_moved f m, h, Node.shape_moved]

end Stencil.Script
