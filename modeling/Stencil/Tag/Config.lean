import Stencil.Json.Basic
import Stencil.Tag.Settings

/-!
# Tag patterns in a configuration

A configuration gives the tag patterns as an object with the entries `evaluate`, `interpolate` and
`escape`, or as an array with up to three items in this order.  A pattern is null where it keeps
its default, a string where it is given by its source, and an array of two strings where it is
given by its delimiters.
-/

namespace Stencil

/-- The entries with the given names in the order of the names, where an object may have each of
them once and no others, and an array may leave out the last ones. -/
def Json.fields? (names : List String) : Json → Option (List (Option Json))
  | .object entries =>
    let keys := entries.map (·.1)
    if keys.all (names.contains ·) && keys.eraseDups.length == keys.length then
      some (names.map (entries.lookup ·))
    else none
  | .array items =>
    if items.length ≤ names.length then
      some ((items.map some ++ names.map fun _ => none).take names.length)
    else none
  | _ => none

/-- The tag pattern that a value gives, or none where it is absent or null. -/
def PatternSetting.ofJson? : Option Json → Option (Option PatternSetting)
  | none => some none
  | some .null => some none
  | some (.string s) => some (some (.source s))
  | some (.array [.string a, .string b]) => some (some (.delimiters a b))
  | some _ => none

/-- The value that gives a tag pattern. -/
def PatternSetting.toJson : PatternSetting → Json
  | source s => .string s
  | delimiters a b => .array [.string a, .string b]

namespace SettingsConfig

/-- The tag patterns that a value gives. -/
def ofJson? (v : Json) : Option SettingsConfig :=
  match v.fields? ["evaluate", "interpolate", "escape"] with
  | some [evaluate, interpolate, escape] => do
    let evaluate ← PatternSetting.ofJson? evaluate
    let interpolate ← PatternSetting.ofJson? interpolate
    let escape ← PatternSetting.ofJson? escape
    pure ⟨evaluate, interpolate, escape⟩
  | _ => none

/-- The entry of an object for a tag pattern that is not absent. -/
def entryFor (key : String) (p : Option PatternSetting) : List (String × Json) :=
  match p with
  | some p => [(key, p.toJson)]
  | none => []

/-- The value that gives the tag patterns. -/
def toJson (c : SettingsConfig) : Json :=
  .object <| entryFor "evaluate" c.evaluate ++ entryFor "interpolate" c.interpolate
    ++ entryFor "escape" c.escape

end SettingsConfig

end Stencil
