import Stencil.Script.Grammar.Statement

/-!
# The grammar of scripts

The rules of the grammar tied together: `Level.above` is the level whose rules refer to a given
one, and a script is read on a level that is as high as the script has characters.

Of the imports in expressions `import(..)` and `import.meta` are read, while `import.defer(..)` and
`import.source(..)` are refused.  A text that is no script has one fault, the first that counts.
The faults that are told apart in `Fault` have a wording and a place; all others, which are most of
the rules on single forms, are `Fault.other` and have neither.
-/

namespace Stencil.Script

/-- The level above a given one. -/
def Level.above (g : Level) : Level where
  statement := Parse.statement g
  assignment := Parse.assignment g
  binary := Parse.binary g
  unary := Parse.unary g
  leftHand := Parse.leftHand g
  primary := Parse.primary g
  pattern := Parse.pattern g

/-- The level with the given number of levels below it. -/
def Level.ofHeight : Nat → Level
  | 0 => .bottom
  | n + 1 => (ofHeight n).above

/-- A script that was read: its tree, in which no node has an identity of its own yet, and its
comments. -/
structure Parsed where
  tree : Node
  comments : List Span

/-- The line that tells how to run the script, at the very beginning of a text. -/
def interpreterLine (t : Text) : Text :=
  match t with
  | '#' :: '!' :: _ => t.takeWhile (!isLineBreak ·)
  | _ => []

/-- Reads the statements of a script. -/
def Parse.script (g : Level) : Parse (List Node) := do
  let body ← many atEnd (g.statement false {})
  pure (markDirectives body)

/-- The faults of a reader that has come to its end, with the one that counts first. -/
def Reader.allFaults (r : Reader) : List Fault :=
  r.lexFaults.reverse ++ r.faults.reverse ++ r.uncovered.map fun _ => .other

/-- The first comment of the script says that it is written with types. -/
def Reader.isTyped (r : Reader) (t : Text) : Bool :=
  match r.comments.getLast? with
  | some c => (Text.find? (Text.ofString "@flow") (c.text t)).isSome
  | none => false

/-- The script that a text is, or the reason why it is none. -/
def Parsed.ofText (t : Text) : Except Fault Parsed :=
  let refuse (r : Reader) (f : Fault) : Except Fault Parsed :=
    .error (if r.isTyped t then .other else f)
  let line := interpreterLine t
  let reader := Reader.ofText (Text.width line) (t.drop line.length)
  match Parse.script (Level.ofHeight (t.length + 2)) reader with
  | .ok body r =>
    match r.allFaults with
    | [] => .ok ⟨.mk 0 ⟨0, Text.width t⟩ (.program body), r.comments.reverse⟩
    | f :: _ => refuse r f
  | .error f r =>
    match r.lexFaults.reverse ++ r.faults.reverse with
    | [] => refuse r f
    | f :: _ => refuse r f

end Stencil.Script
