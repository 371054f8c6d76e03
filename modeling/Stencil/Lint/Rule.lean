import Stencil.Analysis
import Stencil.Json.Basic
import Stencil.Lint.Diagnostic

/-!
# Rules

A rule looks for something in the analysis of a document.  It may take options, which are null
where none are given, and it may ask for views of the document.
-/

namespace Stencil.Lint

/-- What is said about a rule: its name, what it is for, whether it offers fixes, and its severity
where a configuration does not mention it. -/
structure RuleInfo where
  name : String
  description : String
  isFixable : Bool
  severity : Severity
  deriving DecidableEq, Repr, Inhabited

/-- A rule. -/
structure Rule where
  info : RuleInfo
  accepts : Json → Except ConfigError Unit := fun _ => .ok ()
  check : Json → Analysis → StateM ViewStore (List Finding)

namespace Rule

/-- The name of a rule. -/
def name (r : Rule) : String := r.info.name

/-- A rule that takes no options and asks for no views. -/
def plain (info : RuleInfo) (check : Analysis → List Finding) : Rule where
  info := info
  check _ a := pure (check a)

end Rule

/-- A text as a string. -/
def shownText (t : Text) : String := String.ofList t

/-- The tag has no code but blank characters. -/
def isEmptyTag (a : Analysis) (tag : Tag) : Bool := (tag.code.text a.document).all isBlank

end Stencil.Lint
