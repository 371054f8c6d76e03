import Mathlib.Data.List.Induction
import Stencil.Lint.Config
import Stencil.Proofs.Json.RoundTrip

/-!
# Configurations read back

The text of a configuration writes that configuration.  A tag pattern and the setting of a rule are
told from others by the shape of their values alone, and no two of them have the same value.
Setting severities leads from configurations that are read back to such configurations again.  It
changes only the severities of the rules that are named.
-/

namespace Stencil

/-! ### Tag patterns -/

theorem PatternSetting.ofJson?_toJson (p : Option PatternSetting) :
  PatternSetting.ofJson? (p.map PatternSetting.toJson) = some p
  := by
  cases p with
  | none => rfl
  | some p => cases p <;> rfl

theorem PatternSetting.isExact_toJson (p : PatternSetting) :
  p.toJson.IsExact 1
  := by
  cases p with
  | source s => exact .string s
  | delimiters a b =>
      apply Json.IsExact.array
      intro v hv
      rcases List.mem_pair.mp hv with rfl | rfl
      · exact .string a
      · exact .string b

namespace SettingsConfig

/-- The entries of the value for tag patterns are those of the patterns that are not absent. -/
theorem fields?_toJson (c : SettingsConfig) :
  c.toJson.fields? ["evaluate", "interpolate", "escape"]
    = some [c.evaluate.map PatternSetting.toJson, c.interpolate.map PatternSetting.toJson,
        c.escape.map PatternSetting.toJson]
  := by
  obtain ⟨evaluate, interpolate, escape⟩ := c
  cases evaluate <;> cases interpolate <;> cases escape <;> rfl

theorem ofJson?_toJson (c : SettingsConfig) :
  SettingsConfig.ofJson? c.toJson = some c
  := by
  rw [ofJson?, fields?_toJson]
  dsimp only
  rw [PatternSetting.ofJson?_toJson, PatternSetting.ofJson?_toJson, PatternSetting.ofJson?_toJson]
  rfl

theorem isExact_toJson (c : SettingsConfig) :
  c.toJson.IsExact 2
  := by
  have hentry (key : String) (p : Option PatternSetting) :
      ∀ entry ∈ entryFor key p, entry.2.IsExact 1 := by
    intro entry hentry
    cases p with
    | none => cases hentry
    | some p =>
        rw [List.mem_singleton.mp hentry]
        exact p.isExact_toJson
  apply Json.IsExact.object
  intro entry h
  rcases List.mem_append.mp h with h | h
  · rcases List.mem_append.mp h with h | h
    · exact hentry _ _ entry h
    · exact hentry _ _ entry h
  · exact hentry _ _ entry h

end SettingsConfig

namespace Lint

/-! ### Settings of rules -/

namespace RuleSetting

/-- The options in a setting have no floating-point numbers, their arrays and objects are nested in
each other up to the given depth, and the entries of objects have the order of their keys. -/
def IsProper (depth : Nat) : RuleSetting → Prop
  | severity _ => True
  | withOptions _ o => o.IsExact depth ∧ o.IsCanonical

variable {depth : Nat} {setting : RuleSetting}

theorem severity?_key (s : Severity) :
  severity? (.string s.key) = some s
  := by
  cases s <;> rfl

theorem ofJson?_toJson (h : setting.IsProper depth) :
  RuleSetting.ofJson? setting.toJson = some setting
  := by
  cases setting with
  | severity s =>
      rw [toJson, ofJson?, severity?_key]
      exact fun _ _ h => nomatch h
  | withOptions s o =>
      have harray : severity? (.array [.string s.key, o]) = none := rfl
      rw [toJson, ofJson?, harray]
      dsimp only
      rw [severity?_key, h.2.canonical_eq_self]
      rfl

theorem isExact_toJson (h : setting.IsProper depth) :
  setting.toJson.IsExact (depth + 1)
  := by
  cases setting with
  | severity s => exact .string s.key
  | withOptions s o =>
      apply Json.IsExact.array
      intro v hv
      rcases List.mem_pair.mp hv with rfl | rfl
      · exact .string s.key
      · exact h.1

theorem isProper_withSeverity (h : setting.IsProper depth) (s : Severity) :
  (setting.withSeverity s).IsProper depth
  := by
  cases setting with
  | severity => trivial
  | withOptions => exact h

theorem withSeverity_withSeverity (setting : RuleSetting) (s s' : Severity) :
  (setting.withSeverity s).withSeverity s' = setting.withSeverity s'
  := by
  cases setting <;> rfl

theorem options_withSeverity (setting : RuleSetting) (s : Severity) :
  (setting.withSeverity s).options = setting.options
  := by
  cases setting <;> rfl

end RuleSetting

/-! ### Configurations -/

namespace Config

/-- Each rule has one setting, in the order of the names, and the options of the settings are proper
for the given depth. -/
structure IsProper (depth : Nat) (c : Config) : Prop where
  inKeyOrder : Json.InKeyOrder c.rules
  isProper : ∀ entry ∈ c.rules, entry.2.IsProper depth

/-- The configuration after severities of rules are set one after the other. -/
def setSeverities (c : Config) (calls : List (String × Severity)) : Config :=
  calls.foldl (fun c (rule, s) => c.setSeverity rule s) c

variable {depth : Nat} {c : Config}

theorem mapM_rules {rules : List (String × RuleSetting)}
    (h : ∀ entry ∈ rules, entry.2.IsProper depth) :
  (rules.map fun (name, s) => (name, s.toJson)).mapM (fun (name, v) =>
      (RuleSetting.ofJson? v).map fun s => (name, s))
    = some rules
  := by
  induction rules with
  | nil => rfl
  | cons entry rules ih =>
      have hrules := ih fun other hother => h other (List.mem_cons_of_mem _ hother)
      rw [List.map_cons, List.mapM_cons, hrules]
      dsimp only
      rw [RuleSetting.ofJson?_toJson (h entry List.mem_cons_self)]
      rfl

theorem ofJson?_toJson (h : c.IsProper depth) :
  Config.ofJson? c.toJson = some c
  := by
  have hfields : c.toJson.fields? ["templateSettings", "rules"]
      = some [some c.settings.toJson,
          some (.object (c.rules.map fun (name, s) => (name, s.toJson)))] := rfl
  rw [ofJson?, hfields]
  dsimp only
  rw [SettingsConfig.ofJson?_toJson, rulesOf?, mapM_rules h.isProper]
  dsimp only [Option.bind_eq_bind, Option.bind_some]
  rw [Json.sortEntries_eq_self h.inKeyOrder]
  rfl

theorem isExact_toJson (h : c.IsProper depth) :
  c.toJson.IsExact (depth + 3)
  := by
  apply Json.IsExact.object
  intro entry hentry
  rcases List.mem_pair.mp hentry with rfl | rfl
  · exact c.settings.isExact_toJson.mono (by omega)
  · apply Json.IsExact.object
    intro entry hentry
    obtain ⟨rule, hrule, rfl⟩ := List.mem_map.mp hentry
    exact RuleSetting.isExact_toJson (h.isProper rule hrule)

/-- The text of a proper configuration writes that configuration. -/
theorem ofText_text (h : c.IsProper depth) (hdepth : depth + 3 ≤ Json.depthLimit) :
  ofText c.text.toList = .ok c
  := by
  rw [ofText, text, Json.ofText?_textWith Json.spells_plainText ((isExact_toJson h).mono hdepth),
    Option.bind_some, ofJson?_toJson h]

theorem rules_setSeverity (c : Config) (rule : String) (s : Severity) :
  (c.setSeverity rule s).rules
    = Json.insertEntry rule (((c.get? rule).map (·.withSeverity s)).getD (.severity s)) c.rules
  := by
  rw [setSeverity]
  cases c.get? rule <;> rfl

/-- A configuration stays proper when a severity is set. -/
theorem isProper_setSeverity (h : c.IsProper depth) (rule : String) (s : Severity) :
  (c.setSeverity rule s).IsProper depth
  := by
  constructor
  · rw [rules_setSeverity]
    exact Json.inKeyOrder_insertEntry h.inKeyOrder
  · intro entry hentry
    rw [rules_setSeverity] at hentry
    rcases Json.mem_insertEntry hentry with rfl | hentry
    · cases hget : c.get? rule with
      | none => trivial
      | some old =>
          obtain ⟨before, after, hrules, -⟩ := List.lookup_eq_some_iff.mp hget
          have hold : (rule, old) ∈ c.rules := by
            rw [hrules]
            exact List.mem_append_right before List.mem_cons_self
          exact RuleSetting.isProper_withSeverity (h.isProper _ hold) s
    · exact h.isProper entry hentry

/-- To set a severity changes the setting of that rule only. -/
theorem get?_setSeverity (c : Config) (rule : String) (s : Severity) (other : String) :
  (c.setSeverity rule s).get? other
    = if other = rule then some (((c.get? rule).map (·.withSeverity s)).getD (.severity s))
      else c.get? other
  := by
  rw [get?, rules_setSeverity, Json.lookup_insertEntry]
  rfl

theorem setSeverities_append (c : Config) (calls : List (String × Severity)) (rule : String)
    (s : Severity) :
  c.setSeverities (calls ++ [(rule, s)]) = (c.setSeverities calls).setSeverity rule s
  := List.foldl_append

theorem isProper_setSeverities (h : c.IsProper depth) (calls : List (String × Severity)) :
  (c.setSeverities calls).IsProper depth
  := by
  induction calls using List.reverseRecOn with
  | nil => exact h
  | append_singleton calls call ih =>
      rw [setSeverities_append]
      exact isProper_setSeverity ih call.1 call.2

theorem settings_setSeverities (c : Config) (calls : List (String × Severity)) :
  (c.setSeverities calls).settings = c.settings
  := by
  induction calls using List.reverseRecOn with
  | nil => rfl
  | append_singleton calls call ih =>
      rw [setSeverities_append]
      exact ih

/-- After severities are set, a rule that is named has the last severity for it, and its options if
it had some.  Any other rule has its old setting. -/
theorem get?_setSeverities (c : Config) (calls : List (String × Severity)) (rule : String) :
  (c.setSeverities calls).get? rule
    = match calls.reverse.lookup rule with
      | none => c.get? rule
      | some s => some (((c.get? rule).map (·.withSeverity s)).getD (.severity s))
  := by
  induction calls using List.reverseRecOn with
  | nil => rfl
  | append_singleton calls call ih =>
      obtain ⟨named, s⟩ := call
      rw [setSeverities_append, get?_setSeverity, List.reverse_append]
      change _ = match ((named, s) :: calls.reverse).lookup rule with | none => _ | some s => _
      rw [Json.lookup_cons]
      split
      · next hrule =>
          subst hrule
          rw [ih]
          cases calls.reverse.lookup rule with
          | none => rfl
          | some earlier =>
              cases c.get? rule with
              | none => rfl
              | some old =>
                  simp only [Option.map_some, Option.getD_some,
                    RuleSetting.withSeverity_withSeverity]
      · exact ih

/-- The text of a proper configuration writes that configuration, also after severities of rules are
set.  That changes neither the tag patterns nor the settings of rules that are not named, and a rule
that is named keeps its options. -/
theorem ofText_text_setSeverities (h : c.IsProper depth) (hdepth : depth + 3 ≤ Json.depthLimit)
    (calls : List (String × Severity)) :
  ofText c.text.toList = .ok c
    ∧ ofText (c.setSeverities calls).text.toList = .ok (c.setSeverities calls)
    ∧ (c.setSeverities calls).settings = c.settings
    ∧ (∀ rule, (c.setSeverities calls).get? rule
        = match calls.reverse.lookup rule with
          | none => c.get? rule
          | some s => some (((c.get? rule).map (·.withSeverity s)).getD (.severity s)))
    ∧ ∀ rule old, c.get? rule = some old →
        ((c.setSeverities calls).get? rule).map (·.options) = some old.options
  := by
  refine ⟨ofText_text h hdepth, ofText_text (isProper_setSeverities h calls) hdepth,
    settings_setSeverities c calls, get?_setSeverities c calls, ?_⟩
  intro rule old hold
  rw [get?_setSeverities, hold]
  cases calls.reverse.lookup rule with
  | none => rfl
  | some s => exact congrArg some (old.options_withSeverity s)

/-- A configuration with delimiters, a severity that is turned off, and a severity with options
whose strings have to be escaped, where a severity is set for a third rule. -/
theorem ofText_text_tagSpacing :
  let c : Config := {
    settings := { interpolate := some (.delimiters "[[" "]]") }
    rules := [("prefer-escape", .severity .warn),
      ("tag-spacing", .withOptions .error (.array [.string "\"never\"\n", .int (-3)]))] }
  let calls := [("prefer-escape", .off), ("warning-terms", .error)]
  (c.IsProper 100 ∧ 100 + 3 ≤ Json.depthLimit)
    ∧ ofText c.text.toList = .ok c
    ∧ ofText (c.setSeverities calls).text.toList = .ok (c.setSeverities calls)
    ∧ (c.setSeverities calls).rules
      = [("prefer-escape", .severity .off),
        ("tag-spacing", .withOptions .error (.array [.string "\"never\"\n", .int (-3)])),
        ("warning-terms", .severity .error)]
  := by
  intro c calls
  have hoptions : (Json.array [.string "\"never\"\n", .int (-3)]).IsExact 100
      ∧ (Json.array [.string "\"never\"\n", .int (-3)]).IsCanonical := by
    constructor
    · apply Json.IsExact.array
      intro v hv
      rcases List.mem_pair.mp hv with rfl | rfl
      · exact .string _
      · exact .int (by decide)
    · apply Json.IsCanonical.array
      intro v hv
      rcases List.mem_pair.mp hv with rfl | rfl
      · exact .string _
      · exact .int _
  have hproper : c.IsProper 100 := by
    constructor
    · exact List.pairwise_pair.mpr (by decide)
    · intro entry hentry
      rcases List.mem_pair.mp hentry with rfl | rfl
      · trivial
      · exact hoptions
  have hdepth : 100 + 3 ≤ Json.depthLimit := by decide
  obtain ⟨hread, hreadSet, -, -⟩ := ofText_text_setSeverities hproper hdepth calls
  exact ⟨⟨hproper, hdepth⟩, hread, hreadSet, rfl⟩

end Config

end Lint

end Stencil
