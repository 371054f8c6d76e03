import Stencil.Branch.Context
import Stencil.Script.Program
import Stencil.Tag.Scan

/-!
# Errors

What can be wrong with a document or with a configuration.  An error has a wording, which is
shown after the name of its kind, and may have a place in the document.
-/

namespace Stencil

/-- The reasons to refuse a configuration. -/
inductive ConfigError where
  | settings (e : SettingsError)
  | malformed
  | unknownRule (name : String)
  | termOptions
  | term (t : String)
  | spacing
  | rejected (rule : String)
  deriving DecidableEq, Repr

/-- The wording of a refusal. -/
def ConfigError.message : ConfigError → String
  | settings e => e.message
  | malformed => "invalid lint configuration"
  | unknownRule name => "unknown rule \x60" ++ name ++ "\x60"
  | termOptions => "invalid no-warning-terms options"
  | term t => "invalid term \x60" ++ t ++ "\x60"
  | spacing => "template-tag-spacing expects \"always\" or \"never\""
  | rejected rule => rule ++ " rejects its options"

/-- What can be wrong. -/
inductive Error where
  | tag (e : TagError)
  | script (e : Script.ScriptError)
  | config (e : ConfigError)
  | branch (e : BranchError)
  deriving DecidableEq, Repr

namespace Error

/-- The wording of an error. -/
def message : Error → String
  | tag e => e.message
  | script e => e.message
  | config e => e.message
  | branch e => e.message

/-- The name of the kind of an error. -/
def kindName : Error → String
  | tag _ => "template tag error"
  | script _ => "script error"
  | config _ => "configuration error"
  | branch _ => "branch analysis error"

/-- How an error is shown. -/
def text (e : Error) : String := e.kindName ++ ": " ++ e.message

/-- The place of an error. -/
def span? : Error → Option Span
  | tag e => some e.span
  | script e => e.span?
  | config _ => none
  | branch e => some e.span

end Error

end Stencil
