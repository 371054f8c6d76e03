import Stencil.Error
import Stencil.Json.Printer
import Stencil.Json.Reader
import Stencil.Lint.Diagnostic
import Stencil.Lint.Rules.Terms
import Stencil.Tag.Config

/-!
# Configurations

A configuration gives the tag patterns, and for some rules a severity, with options or without
them.  It is written as an object with the entries `templateSettings` and `rules`.  A rule has one
setting; where the text gives it several, the last one counts.
-/

namespace Stencil.Lint

/-- The setting of a rule. -/
inductive RuleSetting where
  | severity (s : Severity)
  | withOptions (s : Severity) (options : Json)
  deriving Inhabited, Repr

namespace RuleSetting

/-- The severity that is set. -/
def severityOf : RuleSetting → Severity
  | severity s => s
  | withOptions s _ => s

/-- The options that are set. -/
def options : RuleSetting → Json
  | severity _ => .null
  | withOptions _ o => o

/-- The setting with another severity. -/
def withSeverity (s : Severity) : RuleSetting → RuleSetting
  | severity _ => severity s
  | withOptions _ o => withOptions s o

/-- The severity that a value names. -/
def severity? (v : Json) : Option Severity := (TermOptions.nameOf? v).bind Severity.ofKey?

/-- The setting that a value gives. -/
def ofJson? (v : Json) : Option RuleSetting :=
  match severity? v with
  | some s => some (severity s)
  | none =>
    match v with
    | .array [s, options] => (severity? s).map (withOptions · options.canonical)
    | _ => none

/-- The value that gives a setting. -/
def toJson : RuleSetting → Json
  | severity s => .string s.key
  | withOptions s o => .array [.string s.key, o]

end RuleSetting

/-- A configuration, with the settings of rules in the order of the names. -/
structure Config where
  settings : SettingsConfig := {}
  rules : List (String × RuleSetting) := []
  deriving Inhabited, Repr

namespace Config

/-- The settings of rules that a value gives. -/
def rulesOf? : Option Json → Option (List (String × RuleSetting))
  | none => some []
  | some (.object entries) => do
    let settings ← entries.mapM fun (name, v) =>
      (RuleSetting.ofJson? v).map fun s => (name, s)
    pure (Json.sortEntries settings)
  | some _ => none

/-- The configuration that a value gives. -/
def ofJson? (v : Json) : Option Config :=
  match v.fields? ["templateSettings", "rules"] with
  | some [settings, rules] => do
    let settings ← match settings with
      | none => some {}
      | some v => SettingsConfig.ofJson? v
    let rules ← rulesOf? rules
    pure ⟨settings, rules⟩
  | _ => none

/-- The configuration that a text writes. -/
def ofText (t : Text) : Except ConfigError Config :=
  match (Json.ofText? t).bind ofJson? with
  | some c => .ok c
  | none => .error .malformed

/-- The value that gives a configuration. -/
def toJson (c : Config) : Json :=
  .object
    [("templateSettings", c.settings.toJson),
      ("rules", .object (c.rules.map fun (name, s) => (name, s.toJson)))]

/-- The text that writes a configuration, in which no more characters are escaped than have to
be. -/
def text (c : Config) : String := c.toJson.textWith Json.plainText

/-- The setting of a rule. -/
def get? (c : Config) (rule : String) : Option RuleSetting := c.rules.lookup rule

/-- Sets the severity of a rule, whose options are kept. -/
def setSeverity (c : Config) (rule : String) (s : Severity) : Config :=
  let setting :=
    match c.get? rule with
    | some old => old.withSeverity s
    | none => .severity s
  { c with rules := Json.insertEntry rule setting c.rules }

end Config

end Stencil.Lint
