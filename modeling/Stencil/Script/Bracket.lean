import Stencil.Script.Fault
import Stencil.Text.Lines

/-!
# Brackets

Before a script is read its brackets are counted, and no more than `bracketLimit` of them may be
open at once.  Brackets in strings and comments do not count; a string ends at the latest with
its line.
-/

namespace Stencil.Script

/-- Where the count of brackets stands: in code, or within a string or a comment. -/
inductive BracketMode where
  | code
  | quoted (quote : Char) (escaped : Bool)
  | line
  | block (star : Bool)
  deriving DecidableEq, Repr

/-- The first bracket that opens while the limit is reached, where `depth` brackets are open at
the given offset. -/
def bracketBeyond (mode : BracketMode) (depth offset : Nat) : Text → Option Span
  | [] => none
  | c :: t =>
    let next := offset + c.utf8Size
    match mode with
    | .quoted quote escaped =>
      if escaped then bracketBeyond (.quoted quote false) depth next t
      else if c == '\\' then bracketBeyond (.quoted quote true) depth next t
      else if c == '\n' || c == '\r' || c == quote then bracketBeyond .code depth next t
      else bracketBeyond (.quoted quote false) depth next t
    | .line => bracketBeyond (if c == '\n' || c == '\r' then .code else .line) depth next t
    | .block star =>
      bracketBeyond (if star && c == '/' then .code else .block (c == '*')) depth next t
    | .code =>
      if c == '(' || c == '[' || c == '{' then
        if depth ≥ bracketLimit then some ⟨offset, offset + 1⟩
        else bracketBeyond .code (depth + 1) next t
      else if c == ')' || c == ']' || c == '}' then bracketBeyond .code (depth - 1) next t
      else if c == '"' || c == '\'' then bracketBeyond (.quoted c false) depth next t
      else
        match c, t with
        | '/', '/' :: t => bracketBeyond .line depth (offset + 2) t
        | '/', '*' :: t => bracketBeyond (.block false) depth (offset + 2) t
        | _, t => bracketBeyond .code depth next t

end Stencil.Script
