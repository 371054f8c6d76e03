import Stencil.Lint.Rules.Terms

/-!
# Rules for delimiters

These rules look at how tags are written: which kind of output tag is used, and what stands
between the delimiters of a tag and its code.
-/

namespace Stencil.Lint

/-- Reports output tags that do not escape. -/
def preferEscape : Rule :=
  .plain
    ⟨"prefer-escape-template-interpolations",
      "Prefer HTML-escaping escape tags over raw interpolate tags", false, .off⟩
    fun a =>
      (a.tags.filter (·.kind == .interpolate)).map fun tag =>
        { span := tag.opening
          message :=
            "Expected an escape tag instead of \x60" ++ shownText (tag.opening.text a.document)
              ++ "\x60" }

/-- What should stand between the delimiters of a tag and its code. -/
inductive Spacing where
  | always
  | never
  deriving DecidableEq, Repr, Inhabited

/-- The spacing that a value asks for. -/
def Spacing.ofJson (v : Json) : Except ConfigError Spacing :=
  match v with
  | .null => .ok .always
  | v =>
    match TermOptions.nameOf? v with
    | some "always" => .ok .always
    | some "never" => .ok .never
    | _ => .error .spacing

/-- The gap between the opening of a tag and its code. -/
def gapBefore (a : Analysis) (tag : Tag) : Span :=
  let blanks := (tag.code.text a.document).takeWhile isBlank
  ⟨tag.code.start, tag.code.start + Text.width blanks⟩

/-- The gap between the code of a tag and its closing. -/
def gapAfter (a : Analysis) (tag : Tag) : Span :=
  let blanks := (tag.code.text a.document).reverse.takeWhile isBlank
  ⟨tag.code.stop - Text.width blanks, tag.code.stop⟩

/-- The finding that a gap is not a single space.  A gap in which a line ends is accepted. -/
def oneSpace (document : Text) (delimiter gap : Span) (message : String) : List Finding :=
  let t := gap.text document
  if gap.isEmpty then
    [{ span := delimiter, message := message, fix := some (.insert gap.start [' ']) }]
  else if t = [' '] || t.any isLineBreak then []
  else [{ span := gap, message := message, fix := some ⟨gap, [' ']⟩ }]

/-- The finding that a gap is not empty.  A gap in which a line ends is accepted. -/
def noSpace (document : Text) (gap : Span) (message : String) : List Finding :=
  if gap.isEmpty || (gap.text document).any isLineBreak then []
  else [{ span := gap, message := message, fix := some (.remove gap) }]

/-- The findings for the gaps of a tag. -/
def spacingFindings (spacing : Spacing) (a : Analysis) (tag : Tag) : List Finding :=
  let opening := shownText (tag.opening.text a.document)
  let closing := shownText (tag.closing.text a.document)
  match spacing with
  | .always =>
    oneSpace a.document tag.opening (gapBefore a tag)
        ("Expected 1 space after \x60" ++ opening ++ "\x60")
      ++ oneSpace a.document tag.closing (gapAfter a tag)
        ("Expected 1 space before \x60" ++ closing ++ "\x60")
  | .never =>
    noSpace a.document (gapBefore a tag) ("Expected no space after \x60" ++ opening ++ "\x60")
      ++ noSpace a.document (gapAfter a tag)
        ("Expected no space before \x60" ++ closing ++ "\x60")

/-- Reports gaps between delimiters and code that are not as they should be. -/
def tagSpacing : Rule where
  info :=
    ⟨"template-tag-spacing", "Enforce consistent spacing inside template tag delimiters", true,
      .warn⟩
  accepts options := (Spacing.ofJson options).map fun _ => ()
  check options a :=
    match Spacing.ofJson options with
    | .ok spacing =>
      pure ((a.tags.filter (!isEmptyTag a ·)).flatMap (spacingFindings spacing a))
    | .error _ => pure []

end Stencil.Lint
