import Stencil.Script.Reader

/-!
# Levels of the grammar

The rules of the grammar refer to each other.  A level is the list of those rules that others
refer to after they have taken a lexeme; each rule is defined relative to the level below it, so
that a level understands all scripts whose constructs are nested no deeper than there are levels
below it.
-/

namespace Stencil.Script

/-- What the surroundings of an expression say about it: whether `in` is an operator, and whether
the innermost function is a generator and whether it is asynchronous. -/
structure Scope where
  allowsIn : Bool := true
  isGenerator : Bool := false
  isAsync : Bool := false
  deriving DecidableEq, Repr, Inhabited

/-- The scope in which `in` is an operator. -/
def Scope.withIn (s : Scope) : Scope := { s with allowsIn := true }

/-- The scope in which `in` is no operator. -/
def Scope.withoutIn (s : Scope) : Scope := { s with allowsIn := false }

/-- The rules of the grammar that others refer to.  A statement that stands on its own, outside
of a list, is `single`. -/
structure Level where
  statement : (single : Bool) → Scope → Parse Node
  assignment : Scope → Parse Node
  binary : (rank : Nat) → Scope → Parse Node
  unary : Scope → Parse Node
  leftHand : Scope → Parse Node
  primary : Scope → Parse Node
  pattern : Scope → Parse Node

/-- The level that understands nothing. -/
def Level.bottom : Level where
  statement _ _ := Parse.unexpected
  assignment _ := Parse.unexpected
  binary _ _ := Parse.unexpected
  unary _ := Parse.unexpected
  leftHand _ := Parse.unexpected
  primary _ := Parse.unexpected
  pattern _ := Parse.unexpected

namespace Parse

variable {α : Type}

/-- The part of the source from offset `start`, where `source` begins, to the end of the last
lexeme. -/
def sourceFrom (start : Nat) (source : Text) : Parse Text :=
  return Text.before ((← lastEnd) - start) source

/-- A leaf for the word that the reader stands at, as a name. -/
def nameHere : Parse Node := do
  let start ← start
  let name := (← current).spelling
  advanceName
  node start (.identifier name.toList)

/-- Notes a fault where a word that controls the innermost function is used as a name. -/
def noteControlWord (scope : Scope) : Parse Unit := do
  noteIf <| (scope.isGenerator && (← atWord "yield")) || (scope.isAsync && (← atWord "await"))

/-- A name that refers to a variable. -/
def reference (scope : Scope) : Parse Node := do
  if (← current).isName then
    noteControlWord scope
    nameHere
  else unexpected

/-- A name that is being bound. -/
def boundName (scope : Scope) : Parse Node := do
  let l ← current
  if l.isName then
    noteControlWord scope
    nameHere
  else if l.isReserved then throw .other
  else unexpected

/-- A name that may be any word. -/
def anyName : Parse Node := do
  if (← current).isAnyWord then nameHere else unexpected

/-- A spread argument, element or property. -/
def spread (g : Level) (scope : Scope) : Parse Node := do
  let start ← start
  advance
  let argument ← g.assignment scope
  node start (.spreadElement argument)

/-- The lexeme after the one that the reader stands at satisfies a condition, which is also told
whether a line ends before it. -/
def nextIs (condition : Lexeme → Bool → Bool) : Parse Bool :=
  ahead
    (do
      advanceName
      return condition (← current) (← onNewLine))
    false

end Parse

end Stencil.Script
