import Stencil.Lint.Rule

/-!
# Rules for markup

These rules look at the markup of every view of a document, so that a finding in any branch is
reported.
-/

namespace Stencil.Lint

open Markup

/-- Reports the issues of the markup. -/
def endTagMatch : Rule where
  info :=
    ⟨"html-end-tag-match", "Require matching end tags in every branch of the template", false,
      .error⟩
  check _ a := do
    let views ← a.views
    pure <| views.flatMap fun v =>
      v.markup.issues.map fun i => { span := i.span, message := i.problem.message }

/-- The attributes whose names stand among the names of attributes before them. -/
def repeatedAttributes (seen : List Text) : List Attribute → List Attribute
  | [] => []
  | a :: rest =>
    if seen.contains a.name then a :: repeatedAttributes seen rest
    else repeatedAttributes (a.name :: seen) rest

/-- The attributes with names of their own, to which no tag contributes. -/
def ownAttributes (tags : List Tag) (attributes : List Attribute) : List Attribute :=
  attributes.filter fun a => !tags.any fun t => t.span.intersects a.nameSpan

/-- Reports attributes that an element has had before. -/
def duplicateAttributes : Rule where
  info :=
    ⟨"no-duplicate-attributes", "Disallow duplicate attributes on an element in any branch",
      false, .error⟩
  check _ a := do
    let visitor : Analysis.ItemVisitor (List Attribute) :=
      { enter := fun i _ _ found =>
          (.continue, found ++ repeatedAttributes [] (ownAttributes a.tags i.attributes))
        leave := fun _ _ _ found => found }
    let (_, found) ← a.walkItems visitor []
    pure <| found.map fun repeated =>
      { span := repeated.nameSpan
        message := "Duplicate attribute \x60" ++ shownText repeated.name ++ "\x60" }

end Stencil.Lint
