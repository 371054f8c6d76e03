import Stencil.Proofs.Condition.Cache
import Stencil.Proofs.Script.Alone
import Stencil.Proofs.Script.Shape

/-!
# Tests with the same constraint

A test without the negations and the conversions around it is a comparison or is taken as a whole.
The texts by which its condition is known stand for expressions that are true together with the
test: the test as a whole, with a negation if need be, or the comparison, read from either side.
Whether a text shows what it stands for can be told by reading it on its own, as an expression.  As
there is only one way to read a text, two tests whose conditions have a text in common are true
together, under every assignment of truth values that follows the laws of negation, conversion and
comparison, if the text shows both.

A text need not show what it stands for.  Conditions are known by texts without white space, which
may be the texts of other expressions, and operands that stand in parentheses are known without
them.
-/

namespace Stencil

open Script

namespace Script.Shape

/-- The shape of an operation on one operand. -/
def unary (operator : String) (argument : Shape) : Shape := node (.unary operator ()) [argument]

/-- The shape of an operation on two operands. -/
def binary (operator : String) (left right : Shape) : Shape :=
  node (.binary operator () ()) [left, right]

/-- The shape of the conversion to a truth value. -/
def conversion (optional : Bool) (argument : Shape) : Shape :=
  node (.call () [()] optional) [node (.identifier (Text.ofString "Boolean")) [], argument]

/-- The shape is that of a spread argument. -/
def isSpread : Shape → Bool
  | node (.spreadElement _) _ => true
  | _ => false

/-- Truth values for shapes under which negation, the conversion to a truth value and the comparison
operators have their meaning. -/
structure Lawful (V : Shape → Bool) : Prop where
  negation : ∀ a, V (unary "!" a) = !V a
  conversion : ∀ optional a, a.isSpread = false → V (conversion optional a) = V a
  swapped : ∀ (c : Comparator) l r, V (binary c.swapped.text r l) = V (binary c.text l r)
  opposite : ∀ (c : Comparator) l r, V (binary c.opposite.text l r) = !V (binary c.text l r)

end Script.Shape

namespace Script.Node

/-- What a test is about, without the negations and the conversions around it. -/
inductive Core where
  | whole (test : Node)
  | comparison (left : Node) (comparator : Comparator) (right : Node)

/-- What a test is about, and whether the test says that this is false. -/
def core : Node → Core × Bool
  | .mk id span (.unary operator argument) =>
    if operator = "!" then (argument.core.1, !argument.core.2)
    else (.whole (.mk id span (.unary operator argument)), false)
  | .mk id span (.call callee [argument] optional) =>
    if callee.isBooleanName && !argument.isSpread then argument.core
    else (.whole (.mk id span (.call callee [argument] optional)), false)
  | .mk id span (.binary operator left right) =>
    match Comparator.ofText? operator with
    | some c => (.comparison left c right, false)
    | none => (.whole (.mk id span (.binary operator left right)), false)
  | n => (.whole n, false)

/-- The condition that is known by the texts of what a test is about. -/
def Core.condition (source : Text) (negated : Bool) : Core → Condition
  | whole n => ⟨.simple (Condition.squeeze (n.text source)), negated⟩
  | comparison l c r =>
    ⟨.comparison (Condition.squeeze (l.text source)) c (Condition.squeeze (r.text source)), negated⟩

/-- The expressions that a condition stands for by its texts, one for each text. -/
def Core.expressions (negated : Bool) : Core → List Shape
  | whole n => [if negated then .unary "!" n.shape else n.shape]
  | comparison l c r =>
    let c := if negated then c.opposite else c
    [.binary c.text l.shape r.shape, .binary c.swapped.text r.shape l.shape]

/-- The expressions that the condition of a test stands for by its texts, one for each text. -/
def expressions (n : Node) : List Shape := n.core.1.expressions n.core.2

section Truth

variable {V : Shape → Bool} (hV : Shape.Lawful V)

include hV

end Truth

end Script.Node

namespace Script.Program

open ConditionCache

variable {source : Text}

end Script.Program

namespace Script


end Script

namespace Script

/-! ### Two choices -/

/-- A name as an expression. -/
def Shape.name (t : Text) : Shape := node (.identifier t) []

end Script

namespace Script.Program

open ConditionCache

end Script.Program

end Stencil
