import Stencil.Text.Span

/-!
# Faults of scripts

A fault is a reason why a text is no script.  The faults that are told apart have a wording and
a place of their own; the others share one wording and have no place.
-/

namespace Stencil.Script

/-- The reasons why a text is no script. -/
inductive Fault where
  | unexpected (span : Span)
  | expected (wanted found : String) (span : Span)
  | noSemicolon (span : Span)
  | unterminatedString (span : Span)
  | unterminatedComment (span : Span)
  | unterminatedRegex (span : Span)
  | notAssignable (span : Span)
  | brackets (span : Span)
  | nesting (span : Span)
  | overflow
  | other
  deriving DecidableEq, Repr, Inhabited

/-- The number of brackets that may be open at once. -/
def bracketLimit : Nat := 64

/-- The number of statements and expressions that may lie within each other. -/
def nestingLimit : Nat := 256

namespace Fault

/-- The wording of a fault. -/
def message : Fault → String
  | unexpected _ => "Unexpected token"
  | expected wanted found _ => "Expected \x60" ++ wanted ++ "\x60 but found \x60" ++ found ++ "\x60"
  | noSemicolon _ =>
    "Expected a semicolon or an implicit semicolon after a statement, but found none"
  | unterminatedString _ => "Unterminated string"
  | unterminatedComment _ => "Unterminated multiline comment"
  | unterminatedRegex _ => "Unterminated regular expression"
  | notAssignable _ => "Cannot assign to this expression"
  | brackets _ => s!"brackets nested deeper than {bracketLimit} levels"
  | nesting _ => s!"script nesting exceeds {nestingLimit} levels"
  | overflow => "attempt to add with overflow"
  | other => "syntax error"

/-- The place of a fault. -/
def span? : Fault → Option Span
  | unexpected s => some s
  | expected _ _ s => some s
  | noSemicolon s => some s
  | unterminatedString s => some s
  | unterminatedComment s => some s
  | unterminatedRegex s => some s
  | notAssignable s => some s
  | brackets s => some s
  | nesting s => some s
  | overflow => none
  | other => none

end Fault

end Stencil.Script
