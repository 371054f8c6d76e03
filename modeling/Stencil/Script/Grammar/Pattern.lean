import Stencil.Script.Grammar.Level

/-!
# Binding patterns

A binding is a name, an array pattern or an object pattern.  The parts of patterns and the
parameters of functions may have defaults, and the last of them may take the rest.  Patterns
other than names are leaves of the tree.
-/

namespace Stencil.Script.Parse

/-- A default for the pattern on the left, which begins at offset `start`, if there is one. -/
def withDefault (g : Level) (scope : Scope) (start : Nat) (left : Node) : Parse Node := do
  if ← eat "=" then
    let right ← g.assignment scope.withIn
    node start (.assignmentPattern left right)
  else pure left

/-- A pattern that may have a default. -/
def patternWithDefault (g : Level) (scope : Scope) : Parse Node := do
  let start ← start
  let left ← g.pattern scope
  withDefault g scope start left

/-- A pattern that takes the rest.  It has no default. -/
def restPattern (g : Level) (scope : Scope) : Parse Node := do
  let start ← start
  advance
  let inner ← Parse.start
  let left ← g.pattern scope
  let right ← withDefault g scope inner left
  noteIf (right.typeName == "AssignmentPattern")
  node start (.restElement right)

/-- The results of a parse with commas between them, up to a closing mark that is not passed,
where the last one may be a pattern that takes the rest. -/
def separatedWithRest {α : Type} (g : Level) (scope : Scope) (close : String) (item : Parse α) :
    Parse (List α × Option Node) :=
  loop
    (fun (items, rest, isFirst) => do
      let l ← current
      if l.isMark close || l.isEnd then pure (.inr (items.reverse, rest))
      else
        if !isFirst then expect ","
        if !isFirst && (← atMark close) then
          noteIf rest.isSome
          pure (.inr (items.reverse, rest))
        else
          noteIf rest.isSome
          if ← atMark "..." then pure (.inl (items, some (← restPattern g scope), false))
          else pure (.inl ((← item) :: items, rest, false)))
    (([] : List α), (none : Option Node), true)

/-- The modifiers before the name of a member or a parameter. -/
def modifiers : Parse (List String) :=
  loop
    (fun taken => do
      let w := (← current).spelling
      let follows (l : Lexeme) (newLine : Bool) : Bool :=
        (w == "static" || !newLine)
          && (l.isMark "[" || l.isMark "\x7b" || l.isMark "*" || l.isMark "..."
            || l == .privateName || l.isPropertyName)
      if (← current).isAnyWord && w ∈ modifierWords
          && w ∉ ["const", "export", "default"] && (← nextIs follows) then
        advance
        pure (.inl (w :: taken))
      else pure (.inr taken))
    []

/-- The name of a property, and whether it is computed. -/
def propertyName (g : Level) (scope : Scope) : Parse (Node × Bool) := do
  let start ← start
  let source ← here
  match ← current with
  | .string value =>
    advance
    let raw ← sourceFrom start source
    return (← node start (.literal (.string value) raw), false)
  | .number _ =>
    advance
    let raw ← sourceFrom start source
    return (← node start (.literal (.number raw) raw), false)
  | .mark "[" =>
    advance
    let key ← g.assignment scope.withIn
    expect "]"
    return (key, true)
  | _ => return (← anyName, false)

/-- A property of an object pattern. -/
def boundProperty (g : Level) (scope : Scope) : Parse Unit := do
  let start ← start
  let isName := (← current).isName
  let (key, _) ← propertyName g scope
  if isName && !(← atMark ":") then discard (withDefault g scope start key)
  else
    expect ":"
    discard (patternWithDefault g scope)

/-- What takes the rest is not a name. -/
def isPatternRest (rest : Option Node) : Bool :=
  match rest with
  | some (.mk _ _ (.restElement argument)) => argument.name?.isNone
  | _ => false

/-- An object pattern. -/
def objectPattern (g : Level) (scope : Scope) : Parse Node := do
  let start ← start
  expect "\x7b"
  let (_, rest) ← separatedWithRest g scope "\x7d" (boundProperty g scope)
  noteIf (isPatternRest rest)
  expect "\x7d"
  node start (.other "ObjectPattern")

/-- An element of an array pattern.  It may be absent. -/
def boundElement (g : Level) (scope : Scope) : Parse Unit := do
  if ← atMark "," then pure () else discard (patternWithDefault g scope)

/-- An array pattern. -/
def arrayPattern (g : Level) (scope : Scope) : Parse Node := do
  let start ← start
  expect "["
  discard (separatedWithRest g scope "]" (boundElement g scope))
  expect "]"
  node start (.other "ArrayPattern")

/-- A binding. -/
def pattern (g : Level) (scope : Scope) : Parse Node := do
  if ← atMark "\x7b" then objectPattern g scope
  else if ← atMark "[" then arrayPattern g scope
  else boundName scope

/-- The parameters of a function. -/
def parameters (g : Level) (scope : Scope) : Parse (List Node) := do
  expect "("
  let (items, rest) ← separatedWithRest g scope ")" <| do
    let taken ← modifiers
    noteIf !taken.isEmpty
    patternWithDefault g scope
  expect ")"
  pure (items ++ rest.toList)

end Stencil.Script.Parse
