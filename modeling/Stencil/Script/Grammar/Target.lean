import Stencil.Script.Grammar.Level

/-!
# Assignment targets

An expression on the left of an assignment turns out to be a target only once the operator is
seen.  Names and members are targets, except for members of an optional chain; arrays and objects
are patterns of targets, in which the parts may have defaults and the last part may take the
rest.  A part of an expression that begins where the expression begins is not in parentheses.
-/

namespace Stencil.Script

/-- The node is a link of an optional chain: it is optional itself or goes on after such a
link. -/
def Node.isChain : Node → Bool
  | .mk _ span (.member object _ _ optional) =>
    optional || (object.span.start == span.start && object.isChain)
  | .mk _ span (.call callee _ optional) =>
    optional || (callee.span.start == span.start && callee.isChain)
  | _ => false

/-- The node is a private name. -/
def Node.isPrivateName (n : Node) : Bool :=
  match n.kind with
  | .other name => name == "PrivateIdentifier"
  | _ => false

/-- What is found on reading an expression as a target: a fault that it cannot be, whether there
is a fault without a place, and the beginnings of shorthand properties that became patterns. -/
structure Covering where
  refusal : Option Fault := none
  isFaulty : Bool := false
  covered : List Nat := []
  deriving Inhabited

namespace Covering

/-- What is found on reading one part after another. -/
def andThen (a b : Covering) : Covering :=
  match a.refusal with
  | some _ => a
  | none => ⟨b.refusal, a.isFaulty || b.isFaulty, a.covered ++ b.covered⟩

/-- The finding that there is a fault without a place if the condition holds. -/
def faultIf (condition : Bool) : Covering := { isFaulty := condition }

end Covering

mutual

/-- Reads an expression as a target.  The beginnings of lists with a comma at their end are
given. -/
def coverTarget (commas : List Nat) : Node → Covering
  | .mk _ _ (.identifier _) => {}
  | .mk id span (.member object name computed optional) =>
    if (Node.mk id span (.member object name computed optional)).isChain then
      { refusal := some (.notAssignable span) }
    else {}
  | .mk _ span (.arrayExpression elements) =>
    coverElements commas (commas.contains span.start) elements
  | .mk _ span (.objectExpression properties) =>
    coverProperties commas (commas.contains span.start) properties
  | .mk _ span _ => { refusal := some (.notAssignable span) }
termination_by structural n => n

/-- Reads the elements of an array as targets. -/
def coverElements (commas : List Nat) (comma : Bool) : List (Option Node) → Covering
  | [] => {}
  | none :: rest => coverElements commas comma rest
  | some (.mk _ _ (.spreadElement argument)) :: rest =>
    if rest.isEmpty then (coverTarget commas argument).andThen (.faultIf comma)
    else { refusal := some .other }
  | some (.mk _ _ (.assignment operator _ _)) :: rest =>
    (Covering.faultIf (operator != "=")).andThen (coverElements commas comma rest)
  | some n :: rest => (coverTarget commas n).andThen (coverElements commas comma rest)
termination_by structural l => l

/-- Reads the properties of an object as targets. -/
def coverProperties (commas : List Nat) (comma : Bool) : List Node → Covering
  | [] => {}
  | .mk _ _ (.spreadElement argument) :: rest =>
    if rest.isEmpty then (coverTarget commas argument).andThen (.faultIf comma)
    else { refusal := some .other }
  | .mk _ _ (.property _ (.mk _ _ (.assignment operator _ _)) _ _ _ _) :: rest =>
    (Covering.faultIf (operator != "=")).andThen (coverProperties commas comma rest)
  | .mk _ span (.property _ value _ _ shorthand _) :: rest =>
    Covering.andThen
      (if shorthand then { covered := [span.start] } else coverTarget commas value)
      (coverProperties commas comma rest)
  | _ :: rest => coverProperties commas comma rest
termination_by structural l => l

end

/-- The form in which a target stands in the tree. -/
def Node.asTarget (n : Node) : Node :=
  match n.kind with
  | .arrayExpression _ => .mk 0 n.span (.other "ArrayPattern")
  | .objectExpression _ => .mk 0 n.span (.other "ObjectPattern")
  | .member _ name _ _ => if name.isPrivateName then .mk 0 n.span (.other "Expression") else n
  | _ => n

namespace Parse

/-- Reads an expression as a target of an assignment. -/
def target (n : Node) : Parse Node := do
  let r ← get
  let c := coverTarget r.trailing n
  set { r with uncovered := r.uncovered.filter (· ∉ c.covered) }
  noteIf c.isFaulty
  match c.refusal with
  | some f => throw f
  | none => pure n.asTarget

/-- Reads an expression as a target that is no pattern. -/
def simpleTarget (n : Node) : Parse Node :=
  match n.kind with
  | .arrayExpression _ => throw (.notAssignable n.span)
  | .objectExpression _ => throw (.notAssignable n.span)
  | _ => target n

end Parse

end Stencil.Script
