import Stencil.Text.Lines
import Stencil.Tag.Basic

/-!
# Views and blanking

A view of a document is a text of the same width in which some pieces of the document are
overwritten, so that the offsets and the lines of a view are those of the document.  Blanking is
the plainest way to overwrite: a character becomes as many spaces as it has bytes, and line
terminators stay.
-/

namespace Stencil

/-- A number of spaces. -/
def spaces (n : Nat) : Text := List.replicate n ' '

@[simp]
theorem width_spaces (n : Nat) :
  Text.width (spaces n) = n
  := by
  induction n with
  | zero => rfl
  | succ n ih =>
    have h : ' '.utf8Size = 1 := rfl
    have hn : Text.width (spaces (n + 1)) = ' '.utf8Size + Text.width (spaces n) := rfl
    omega

/-- The blanked form of a character. -/
def blankChar (c : Char) : Text := if isLineBreak c then [c] else spaces c.utf8Size

@[simp]
theorem width_blankChar (c : Char) :
  Text.width (blankChar c) = c.utf8Size
  := by
  by_cases h : isLineBreak c = true <;> simp [blankChar, h]

/-- The blanked form of a text. -/
def blank (t : Text) : Text := t.flatMap blankChar

theorem blank_cons (c : Char) (t : Text) :
  blank (c :: t) = blankChar c ++ blank t
  := rfl

@[simp]
theorem width_blank (t : Text) :
  Text.width (blank t) = Text.width t
  := by
  induction t with
  | nil => rfl
  | cons c t ih =>
    simp [blank_cons, ih]

/-- The character `c` in the first of the bytes of `old`, the others being spaces. -/
def overwrite (c old : Char) : Text := c :: spaces (old.utf8Size - 1)

theorem width_overwrite {c : Char} (hc : c.utf8Size = 1) (old : Char) :
  Text.width (overwrite c old) = old.utf8Size
  := by
  have hsize := old.utf8Size_pos
  rw [overwrite, Text.width_cons, width_spaces, hc]
  omega

/-- Some character of the text ends a line. -/
def hasLineBreak (t : Text) : Bool := t.any isLineBreak

/-- The document from offset `cursor` on, with the given ranges blanked in turn.  A range begins
no earlier than where the one before it has ended. -/
def blankRangesFrom (document : Text) (cursor : Nat) : List Span → Text
  | [] => Text.onward cursor document
  | range :: rest =>
    let size := Text.width document
    let start := min (max range.start cursor) size
    let stop := min range.stop size
    if stop ≤ start then blankRangesFrom document cursor rest
    else
      Text.slice document cursor start ++ blank (Text.slice document start stop)
        ++ blankRangesFrom document stop rest

/-- The document with the given ranges blanked. -/
def blankRanges (document : Text) (ranges : List Span) : Text :=
  blankRangesFrom document 0 ranges

/-- The document from offset `cursor` on, with `gap` applied to the text between the tags and
`piece` in place of each tag. -/
def replaceTags (document : Text) (gap : Text → Text) (piece : Tag → Text) (cursor : Nat) :
    List Tag → Text
  | [] => gap (Text.onward cursor document)
  | tag :: rest =>
    gap (Text.slice document cursor tag.span.start) ++ piece tag
      ++ replaceTags document gap piece tag.span.stop rest

end Stencil
