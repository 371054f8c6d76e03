import Stencil.Text.Lines

/-!
# Conditions

A condition says of an expression that it is true, or that it is false.  It is known by a list of
texts that all express it.  Two conditions are the same constraint if they have such a text in
common.  Texts are compared without their white space.  A comparison may be read from either
side, and its negation is the comparison with the opposite operator; the negation of any other
text is the text in parentheses after `!`.
-/

namespace Stencil

/-- The operators that compare two operands. -/
inductive Comparator where
  | less
  | lessOrEqual
  | greater
  | greaterOrEqual
  | equal
  | unequal
  | same
  | different
  deriving DecidableEq, Repr, Inhabited

namespace Comparator

/-- The comparators. -/
def all : List Comparator :=
  [less, lessOrEqual, greater, greaterOrEqual, equal, unequal, same, different]

/-- How a comparator is written. -/
def text : Comparator → String
  | less => "<"
  | lessOrEqual => "<="
  | greater => ">"
  | greaterOrEqual => ">="
  | equal => "=="
  | unequal => "!="
  | same => "==="
  | different => "!=="

/-- The comparator that is written as given. -/
def ofText? (s : String) : Option Comparator := all.find? (·.text == s)

/-- The comparator that holds after the operands have changed sides. -/
def swapped : Comparator → Comparator
  | less => greater
  | lessOrEqual => greaterOrEqual
  | greater => less
  | greaterOrEqual => lessOrEqual
  | equal => equal
  | unequal => unequal
  | same => same
  | different => different

/-- The comparator that holds where the comparison is false. -/
def opposite : Comparator → Comparator
  | less => greaterOrEqual
  | lessOrEqual => greater
  | greater => lessOrEqual
  | greaterOrEqual => less
  | equal => unequal
  | unequal => equal
  | same => different
  | different => same

@[simp]
theorem swapped_swapped (c : Comparator) :
  c.swapped.swapped = c
  := by
  cases c <;> rfl

@[simp]
theorem opposite_opposite (c : Comparator) :
  c.opposite.opposite = c
  := by
  cases c <;> rfl

theorem opposite_swapped (c : Comparator) :
  c.swapped.opposite = c.opposite.swapped
  := by
  cases c <;> rfl

end Comparator

/-- What a condition is about. -/
inductive ConditionForm where
  | simple (text : Text)
  | comparison (left : Text) (comparator : Comparator) (right : Text)
  deriving DecidableEq, Repr, Inhabited

/-- A condition: what it is about, and whether that is said to be false. -/
structure Condition where
  form : ConditionForm
  isNegated : Bool
  deriving DecidableEq, Repr, Inhabited

namespace Condition

/-- The text without its white space. -/
def squeeze (t : Text) : Text := t.filter (!isBlank ·)

/-- The condition that an expression with the given text is true. -/
def simple (t : Text) : Condition := ⟨.simple (squeeze t), false⟩

/-- The condition that a comparison is true. -/
def comparison (left : Text) (comparator : Comparator) (right : Text) : Condition :=
  ⟨.comparison (squeeze left) comparator (squeeze right), false⟩

/-- The opposite of a condition. -/
def negate (c : Condition) : Condition := { c with isNegated := !c.isNegated }

@[simp]
theorem negate_negate (c : Condition) :
  c.negate.negate = c
  := by
  simp [negate]

/-- The texts of a comparison, read from the left and from the right. -/
def comparisonTexts (left : Text) (comparator : Comparator) (right : Text) : List Text :=
  [left ++ comparator.text.toList ++ right, right ++ comparator.swapped.text.toList ++ left]

/-- The texts that express a condition. -/
def expressions (c : Condition) : List Text :=
  match c.form, c.isNegated with
  | .simple t, false => [t]
  | .simple t, true => [['!', '('] ++ t ++ [')']]
  | .comparison l op r, false => comparisonTexts l op r
  | .comparison l op r, true => comparisonTexts l op.opposite r

/-- Some text expresses both conditions. -/
def sameConstraint (c d : Condition) : Bool := c.expressions.any (d.expressions.contains ·)

end Condition

end Stencil
