import Stencil.Condition.Basic
import Stencil.Script.Tree

/-!
# Tests

The test of a branch is an expression of a script.  A comparison is a condition of that form, the
negation of a test is the opposite of its condition, and `Boolean(x)` is the condition of `x`.
Any other test is a condition by its text alone.

Where a test is known to be true, so are both operands of a conjunction, and where it is known to
be false, neither operand of a disjunction is true.  `Node.assumptions` lists all that is known
then, with the test itself at the end.
-/

namespace Stencil.Script

/-- The node is a spread argument. -/
def Node.isSpread (n : Node) : Bool :=
  match n.kind with
  | .spreadElement _ => true
  | _ => false

/-- The node is the name of the conversion to a truth value. -/
def Node.isBooleanName (n : Node) : Bool := n.name? == some (Text.ofString "Boolean")

/-- The condition of a test by its text. -/
def Node.simpleCondition (source : Text) (n : Node) : Condition := .simple (n.text source)

/-- The condition of an operation on two operands. -/
def operationCondition (source : Text) (whole : Node) (operator : String) (left right : Node) :
    Condition :=
  match Comparator.ofText? operator with
  | some c => .comparison (left.text source) c (right.text source)
  | none => whole.simpleCondition source

/-- The condition that a test is true. -/
def Node.condition (source : Text) : Node → Condition
  | .mk id span (.unary operator argument) =>
    if operator = "!" then (argument.condition source).negate
    else Node.simpleCondition source (.mk id span (.unary operator argument))
  | .mk id span (.call callee [argument] optional) =>
    if callee.isBooleanName && !argument.isSpread then argument.condition source
    else Node.simpleCondition source (.mk id span (.call callee [argument] optional))
  | .mk id span (.binary operator left right) =>
    operationCondition source (.mk id span (.binary operator left right)) operator left right
  | n => n.simpleCondition source

/-- The operator that says more about its operands where it is true, or where it is false. -/
def splitOperator (truth : Bool) : String := if truth then "&&" else "||"

/-- The condition that a test is true, or that it is false. -/
def Node.ownCondition (source : Text) (truth : Bool) (n : Node) : Condition :=
  if truth then n.condition source else (n.condition source).negate

/-- The conditions that are known to hold where a test is true, or where it is false. -/
def Node.assumptions (source : Text) (truth : Bool) : Node → List Condition
  | .mk id span (.unary operator argument) =>
    if operator = "!" then argument.assumptions source !truth
    else [Node.ownCondition source truth (.mk id span (.unary operator argument))]
  | .mk id span (.call callee [argument] optional) =>
    if callee.isBooleanName && !argument.isSpread then argument.assumptions source truth
    else [Node.ownCondition source truth (.mk id span (.call callee [argument] optional))]
  | .mk id span (.logical operator left right) =>
    (if operator = splitOperator truth then
      left.assumptions source truth ++ right.assumptions source truth
    else [])
      ++ [Node.ownCondition source truth (.mk id span (.logical operator left right))]
  | n => [n.ownCondition source truth]

end Stencil.Script
