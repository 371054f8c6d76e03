import Stencil.Lint.Rule

/-!
# Rules for code

These rules look at the code of tags: whether there is any, whether it can be read, and whether
the code of an output tag is a single expression without a semicolon.
-/

namespace Stencil.Lint

open Script

/-- Reports tags without code. -/
def emptyTag : Rule :=
  .plain ⟨"no-empty-template-tag", "Disallow template tags without code", false, .warn⟩ fun a =>
    (a.tags.filter (isEmptyTag a)).map fun tag =>
      { span := tag.span, message := "Empty micro-template interpolation" }

/-- Reports output tags whose code is not a single expression. -/
def multipleExpressions : Rule :=
  .plain
    ⟨"no-multiple-expressions-in-interpolation",
      "Require interpolate and escape tags to hold exactly one expression", false, .error⟩
    fun a =>
      if a.program.isNone then []
      else
        let isWrong (tag : Tag) : Bool :=
          tag.kind.isOutput && !isEmptyTag a tag && (a.expressionStatement? tag).isNone
        (a.tags.filter isWrong).map fun tag =>
          { span := tag.code
            message :=
              "Expected a single expression in \x60" ++ shownText (tag.opening.text a.document)
                ++ "\x60 interpolation" }

/-- Reports why a document cannot be read. -/
def parsingError : Rule :=
  .plain ⟨"no-parsing-error", "Report template tag and script syntax errors", false, .error⟩
    fun a =>
      a.parseError.toList.map fun e =>
        { span := e.span?.getD ⟨0, 0⟩, message := "Parsing error: " ++ e.message }

/-- Reports semicolons at the end of the code of output tags, the last one first. -/
def trailingSemicolon : Rule :=
  .plain
    ⟨"no-semi-in-template-interpolation",
      "Disallow trailing semicolons in interpolate and escape tags", true, .warn⟩
    fun a =>
      (a.tags.filter (·.kind.isOutput)).flatMap fun tag =>
        match a.tokensOf? tag with
        | none => []
        | some info =>
          (info.tokens.reverse.takeWhile (·.isPunctuator ";")).map fun token =>
            { span := token.span
              message := "Unexpected semicolon in template interpolation"
              fix := some (.remove token.span) }

end Stencil.Lint
