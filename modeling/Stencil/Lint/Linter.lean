import Stencil.Lint.Config
import Stencil.Lint.Registry

/-!
# Linters

A linter runs the rules that a configuration leaves on over documents.  Fixing a document makes
its fixes and lints the result, as long as there are fixes but no more than `passLimit` times.
-/

namespace Stencil.Lint

/-- A rule that is on, with its severity and its options. -/
structure ActiveRule where
  rule : Rule
  severity : Severity
  options : Json

/-- The rules that are on, in the order of their names, and how tags are written. -/
structure Linter where
  settings : Settings
  rules : List ActiveRule

namespace Linter

/-- A rule as a configuration sets it. -/
def activate (config : Config) (rule : Rule) : ActiveRule :=
  match config.get? rule.name with
  | some s => ⟨rule, s.severityOf, s.options⟩
  | none => ⟨rule, rule.info.severity, .null⟩

/-- The rules that are on, once each of them has accepted its options. -/
def acceptAll : List ActiveRule → Except ConfigError (List ActiveRule)
  | [] => .ok []
  | r :: rest =>
    if r.severity = .off then acceptAll rest
    else do
      r.rule.accepts r.options
      pure (r :: (← acceptAll rest))

/-- The linter of a configuration.  Each rule that is set has to be in the registry. -/
def ofConfig (registry : Registry) (config : Config) : Except ConfigError Linter := do
  let settings ← (Settings.ofConfig config.settings).mapError ConfigError.settings
  match config.rules.find? fun (name, _) => (registry.get? name).isNone with
  | some (name, _) => throw (.unknownRule name)
  | none => pure ⟨settings, ← acceptAll (registry.rules.map (activate config))⟩

/-- The names of the rules that are on. -/
def enabled (l : Linter) : List String := l.rules.map (·.rule.name)

/-- The diagnostics of a rule. -/
def run (a : Analysis) (r : ActiveRule) : StateM ViewStore (List Diagnostic) :=
  return (← r.rule.check r.options a).map (.ofFinding r.rule.name r.severity a.lines)

/-- The diagnostics of rules, one rule after the other. -/
def runAll (a : Analysis) : List ActiveRule → StateM ViewStore (List Diagnostic)
  | [] => pure []
  | r :: rest => do
    let found ← run a r
    let later ← runAll a rest
    pure (found ++ later)

/-- The diagnostics of a document. -/
def lint (l : Linter) (document : Text) : List Diagnostic :=
  let a := Analysis.ofDocument readProgram l.settings document
  normalize ((runAll a l.rules).run []).1

/-- The number of times that the fixes of a document are made. -/
def passLimit : Nat := 10

/-- A document with fixes made, their number, and the diagnostics that are left. -/
structure Fixed where
  document : Text
  applied : Nat
  diagnostics : List Diagnostic
  deriving DecidableEq, Repr, Inhabited

/-- Makes the fixes of a document with the given diagnostics, at most `passes` times. -/
def fixFrom (l : Linter) : (passes : Nat) → Text → List Diagnostic → Fixed
  | 0, document, ds => ⟨document, 0, ds⟩
  | passes + 1, document, ds =>
    match applyFixes document ds with
    | (_, 0) => ⟨document, 0, ds⟩
    | (next, count) =>
      let r := fixFrom l passes next (l.lint next)
      { r with applied := count + r.applied }

/-- Makes the fixes of a document. -/
def fix (l : Linter) (document : Text) : Fixed := l.fixFrom passLimit document (l.lint document)

end Linter

/-- The number of diagnostics of a severity. -/
def countOf (s : Severity) (ds : List Diagnostic) : Nat := ds.countP (·.severity = s)

end Stencil.Lint
