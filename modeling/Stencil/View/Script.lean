import Stencil.View.Blank

/-!
# The script view

In the script view of a document only the code of the tags remains, and the text around it is
blanked.  The closing of a tag begins with a line terminator, so that neither a line comment nor
a statement without its semicolon runs on into the next tag.  The code of an output tag stands
between two semicolons, one at the end of its opening and one in its closing.
-/

namespace Stencil

/-- Overwrites the opening of an output tag: it is blanked but for a semicolon at its end, where
it has a byte for that and holds no line terminator. -/
def overwriteOpening (t : Text) : Text :=
  if t.isEmpty || hasLineBreak t then blank t else spaces (Text.width t - 1) ++ [';']

/-- Overwrites the closing of a tag: a line terminator first, and a semicolon at the second
character if `semicolon` is set and that character ends no line. -/
def overwriteClosing (semicolon : Bool) : Text → Text
  | [] => []
  | first :: rest =>
    (if isLineBreak first then [first] else overwrite '\n' first) ++
      match rest with
      | [] => []
      | second :: rest =>
        if semicolon && !isLineBreak second then overwrite ';' second ++ blank rest
        else blank (second :: rest)

/-- The text that stands for a tag in the script view. -/
def scriptOfTag (document : Text) (tag : Tag) : Text :=
  let opening := tag.opening.text document
  (if tag.kind.isOutput then overwriteOpening opening else blank opening)
    ++ tag.code.text document
    ++ overwriteClosing tag.kind.isOutput (tag.closing.text document)

/-- The script view of a document. -/
def scriptView (document : Text) (tags : List Tag) : Text :=
  replaceTags document blank (scriptOfTag document) 0 tags

end Stencil
