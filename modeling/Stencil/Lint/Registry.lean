import Stencil.Lint.Rules.Code
import Stencil.Lint.Rules.Delimiters
import Stencil.Lint.Rules.Markup

/-!
# Registries

A registry holds rules by their names, in the order of the names.  A rule takes the place of an
earlier one with the same name.
-/

namespace Stencil.Lint

/-- Rules by their names, in the order of the names. -/
structure Registry where
  entries : List (String × Rule) := []

namespace Registry

/-- Adds a rule. -/
def add (r : Registry) (rule : Rule) : Registry := ⟨Json.insertEntry rule.name rule r.entries⟩

/-- Adds the rules of a list one after the other. -/
def addAll (r : Registry) (rules : List Rule) : Registry := rules.foldl add r

/-- The rules in the order of their names. -/
def rules (r : Registry) : List Rule := r.entries.map (·.2)

/-- Adds the rules of another registry. -/
def extend (r other : Registry) : Registry := r.addAll other.rules

/-- The names of the rules in order. -/
def names (r : Registry) : List String := r.entries.map (·.1)

/-- The rule with the given name. -/
def get? (r : Registry) (name : String) : Option Rule := r.entries.lookup name

/-- The registry holds no rules. -/
def isEmpty (r : Registry) : Bool := r.entries.isEmpty

/-- The rules that come with the library. -/
def builtinRules : List Rule :=
  [endTagMatch, duplicateAttributes, emptyTag, multipleExpressions, parsingError,
    trailingSemicolon, warningTerms, preferEscape, tagSpacing]

/-- The registry of the rules that come with the library. -/
def builtin : Registry := ({} : Registry).addAll builtinRules

/-- A character of a name between quotes. -/
def quotedChar (c : Char) : String :=
  if c == '"' then "\\\""
  else if c == '\\' then "\\\\"
  else if c == '\n' then "\\n"
  else if c == '\r' then "\\r"
  else if c == '\t' then "\\t"
  else if c == '\x00' then "\\0"
  else if c.val < 0x20 || c.val == 0x7F then
    "\\u\x7b" ++ String.ofList (Nat.toDigits 16 c.toNat) ++ "\x7d"
  else String.ofList [c]

/-- A name between quotes. -/
def quotedName (name : String) : String :=
  "\"" ++ String.join (name.toList.map quotedChar) ++ "\""

/-- How a registry is shown. -/
def shown (r : Registry) : String :=
  "RuleRegistry \x7b rules: [" ++ ", ".intercalate (r.names.map quotedName) ++ "] \x7d"

end Registry

end Stencil.Lint
