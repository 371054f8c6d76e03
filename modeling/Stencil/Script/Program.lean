import Stencil.Script.Bracket
import Stencil.Script.Grammar
import Stencil.Script.Lowering
import Stencil.Script.Token

/-!
# Programs

A program is a script with a lowered tree, its tokens and its comments.  The tokens and the
comments within a span are looked up by bisection, as both lists are in order.
-/

namespace Stencil.Script

/-- The number of entries at the beginning of a list that satisfy a condition, found by bisection
between the indices `low` and `high`. -/
def bisect {α : Type} (condition : α → Bool) (entries : Array α) (low high : Nat) : Nat :=
  if low < high then
    let middle := (low + high) / 2
    if entries[middle]?.any condition then bisect condition entries (middle + 1) high
    else bisect condition entries low middle
  else low
  termination_by high - low
  decreasing_by all_goals omega

/-- The tokens of an ordered list that lie in a span. -/
def within (tokens : List Token) (s : Span) : List Token :=
  let entries := tokens.toArray
  let first := bisect (fun t => t.span.start < s.start) entries 0 entries.size
  let last := bisect (fun t => t.span.stop ≤ s.stop) entries 0 entries.size
  (entries.extract first (max first last)).toList

/-- A program. -/
structure Program where
  tree : Node
  tokens : List Token
  comments : List Token

/-- The program that a script in the given text makes, if its tree can be lowered. -/
def Parsed.program (source : Text) (s : Parsed) : Except Fault Program := do
  let tree ← s.tree.lowered
  let comments := s.comments.map (Token.ofComment source)
  pure ⟨tree, tokens source tree comments, comments⟩

namespace Program

/-- The program that a text is, or the reason why it is none. -/
def ofText (source : Text) : Except Fault Program :=
  match bracketBeyond .code 0 0 source with
  | some span => .error (.brackets span)
  | none => (Parsed.ofText source).bind (·.program source)

/-- The tokens of a program that lie in a span. -/
def tokensIn (p : Program) (s : Span) : List Token := within p.tokens s

/-- The comments of a program that lie in a span. -/
def commentsIn (p : Program) (s : Span) : List Token := within p.comments s

end Program

/-- The reasons why a script cannot be used.  A reader of scripts other than `Program.ofText` may
report reasons of its own. -/
inductive ScriptError where
  | fault (f : Fault)
  | reported (message : String) (span : Option Span)
  deriving DecidableEq, Repr

namespace ScriptError

/-- The wording of an error. -/
def message : ScriptError → String
  | fault f => f.message
  | reported m _ => m

/-- The place of an error. -/
def span? : ScriptError → Option Span
  | fault f => f.span?
  | reported _ s => s

end ScriptError

end Stencil.Script
