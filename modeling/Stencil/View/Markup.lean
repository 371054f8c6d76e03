import Stencil.View.Blank

/-!
# The markup view

In the markup view of a document each tag is overwritten by text that means nothing in markup
and little in a script around it.  An evaluate tag becomes a block comment.  An output tag
becomes a word of underscores, or, where its code runs over several lines, an underscore
followed by a block comment, or, where there is no room for that, a single underscore.  The tags
that share an offset with a striped range are blanked.
-/

namespace Stencil

/-- Overwrites a text by a block comment that follows `lead`.  The first `head` characters give
room for the lead and the opening of the comment and the last two for its closing, unless they
hold a line terminator or have too few bytes. -/
def commentOver? (head : Nat) (lead : Text) (t : Text) : Option Text :=
  if t.length < head + 2 then none
  else
    let front := t.take head
    let middle := (t.drop head).take (t.length - head - 2)
    let back := t.drop (t.length - 2)
    let opening := lead ++ ['/', '*']
    let closing := ['*', '/']
    if hasLineBreak front || hasLineBreak back || Text.width front < Text.width opening then none
    else
      some <| opening ++ spaces (Text.width front - Text.width opening) ++ blank middle
        ++ spaces (Text.width back - Text.width closing) ++ closing

/-- Overwrites the first character of a text that is not white space by an underscore, and
blanks the others. -/
def underscoreOver : Text → Text
  | [] => []
  | c :: t => if isBlank c then blankChar c ++ underscoreOver t else overwrite '_' c ++ blank t

/-- Overwrites an evaluate tag. -/
def overwriteEvaluate (t : Text) : Text := (commentOver? 2 [] t).getD (blank t)

/-- Overwrites an output tag with the given code. -/
def overwriteOutput (t code : Text) : Text :=
  if hasLineBreak code then (commentOver? 3 ['_'] t).getD (underscoreOver t)
  else List.replicate (Text.width t) '_'

/-- The text that overwrites a tag, where the ranges in `striped` are hidden. -/
def overwriteTag (document : Text) (striped : List Span) (tag : Tag) : Text :=
  let t := tag.span.text document
  if striped.any (·.intersects tag.span) then blank t
  else if tag.kind.isOutput then overwriteOutput t (tag.code.text document)
  else overwriteEvaluate t

/-- The markup view of a document, where the ranges in `striped` are hidden. -/
def markupView (document : Text) (tags : List Tag) (striped : List Span) : Text :=
  replaceTags document id (overwriteTag document striped) 0 tags

end Stencil
