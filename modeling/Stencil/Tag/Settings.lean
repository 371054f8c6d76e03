import Stencil.Tag.Basic
import Stencil.Pattern.Source

/-!
# Tag settings

A tag pattern says how the tags of one kind are written.  It is given by the source of a pattern
whose first group is the code, or by a pair of delimiters with the code between them.  The
opener of a tag pattern is a literal text with which its tags begin, if one can be told from
the source; where an opener stands but no tag does, a tag was left open.
-/

namespace Stencil

/-- A tag pattern as it stands in a configuration. -/
inductive PatternSetting where
  | source (source : String)
  | delimiters (opening closing : String)
  deriving DecidableEq, Repr, Inhabited

/-- The tag patterns of a configuration.  An absent pattern keeps its default. -/
structure SettingsConfig where
  evaluate : Option PatternSetting := none
  interpolate : Option PatternSetting := none
  escape : Option PatternSetting := none
  deriving DecidableEq, Repr, Inhabited

/-- The reasons to refuse a tag pattern. -/
inductive SettingsError where
  | invalidPattern (source : String)
  | noCodeGroup (source : String)
  | emptyDelimiters
  deriving DecidableEq, Repr

/-- The wording of a refusal. -/
def SettingsError.message : SettingsError → String
  | invalidPattern source => "invalid tag pattern \x60" ++ source ++ "\x60"
  | noCodeGroup source =>
    "tag pattern \x60" ++ source ++ "\x60 must capture the tag code in group 1"
  | emptyDelimiters => "tag delimiters must not be empty"

/-- How the tags of one kind are written. -/
structure TagPattern where
  source : Text
  pattern : Pattern
  opener : Option Text
  deriving DecidableEq, Repr, Inhabited

namespace TagPattern

/-- The character is punctuation of ASCII. -/
def isPunctuation (c : Char) : Bool :=
  ('!' ≤ c && c ≤ '/') || (':' ≤ c && c ≤ '@') || ('[' ≤ c && c ≤ '\x60') || ('{' ≤ c && c ≤ '~')

/-- The character at the beginning of the source of a pattern, if it stands for itself, and the
source after it. -/
def literalAt? : Text → Option (Char × Text)
  | [] => none
  | '\\' :: c :: t => if isPunctuation c then some (c, t) else none
  | c :: t =>
    if c ∈ ['\\', '.', '+', '*', '?', '(', ')', '|', '[', ']', '{', '}', '^', '$'] then none
    else some (c, t)

/-- The characters at the beginning of the source of a pattern that stand for themselves and
are not repeated. -/
def literalBeginning : Nat → Text → Text
  | 0, _ => []
  | limit + 1, t =>
    match literalAt? t with
    | none => []
    | some (c, rest) =>
      match rest with
      | '?' :: _ => []
      | '*' :: _ => []
      | '{' :: _ => []
      | _ => c :: literalBeginning limit rest

/-- The opener of a tag pattern with the given source. -/
def openerOfSource (source : Text) : Option Text :=
  match literalBeginning source.length source with
  | [] => none
  | t => some t

/-- The tag pattern with the given source. -/
def ofSource (source : String) : Except SettingsError TagPattern :=
  match Pattern.ofSource? source.toList with
  | none => .error (.invalidPattern source)
  | some p =>
    if p.groups = 0 then .error (.noCodeGroup source)
    else .ok ⟨source.toList, p.pattern, openerOfSource source.toList⟩

/-- The pattern of the texts that begin with `opening` and end with the first `closing` after
it, with the text between them as its first group. -/
def between (opening closing : Text) : Pattern :=
  .seq (.literal opening) (.seq (.group 1 (.star false (.one .all))) (.literal closing))

/-- The tag pattern with the given delimiters. -/
def ofDelimiters (opening closing : String) : Except SettingsError TagPattern :=
  if opening.isEmpty || closing.isEmpty then .error .emptyDelimiters
  else
    let source := Pattern.escape opening.toList ++ Text.ofString "([\\s\\S]*?)"
      ++ Pattern.escape closing.toList
    .ok ⟨source, between opening.toList closing.toList, some opening.toList⟩

/-- The tag pattern of a configuration. -/
def ofSetting : PatternSetting → Except SettingsError TagPattern
  | .source s => ofSource s
  | .delimiters a b => ofDelimiters a b

/-- The tag pattern with the given opening and the closing `%>`. -/
def percent (opening : String) : TagPattern :=
  ⟨opening.toList ++ Text.ofString "([\\s\\S]*?)%>", between opening.toList ['%', '>'],
    some opening.toList⟩

end TagPattern

/-- How the tags of the three kinds are written. -/
structure Settings where
  evaluate : TagPattern := .percent "<%"
  interpolate : TagPattern := .percent "<%="
  escape : TagPattern := .percent "<%-"
  deriving DecidableEq, Repr, Inhabited

namespace Settings

/-- The settings of a configuration. -/
def ofConfig (config : SettingsConfig) : Except SettingsError Settings := do
  let settings : Settings := {}
  let pattern (default : TagPattern) : Option PatternSetting → Except SettingsError TagPattern
    | none => .ok default
    | some p => TagPattern.ofSetting p
  let evaluate ← pattern settings.evaluate config.evaluate
  let interpolate ← pattern settings.interpolate config.interpolate
  let escape ← pattern settings.escape config.escape
  pure ⟨evaluate, interpolate, escape⟩

/-- The tag patterns with their kinds, in the order in which they are preferred. -/
def ordered (s : Settings) : List (Tag.Kind × TagPattern) :=
  [(.escape, s.escape), (.interpolate, s.interpolate), (.evaluate, s.evaluate)]

end Settings

end Stencil
