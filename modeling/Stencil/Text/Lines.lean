import Stencil.Text.Basic

/-!
# Lines

A line of a text ends after a line terminator, where a carriage return followed by a line feed
is one terminator.  `lineStarts` lists the offsets at which the lines of a text begin, and
`Lines` keeps them together with the text to convert between offsets and locations, which
number lines from one and the characters of a line from zero.
-/

namespace Stencil

/-- The character ends a line. -/
def isLineBreak (c : Char) : Bool :=
  c == '\n' || c == '\r' || c == '\u2028' || c == '\u2029'

/-- The character is white space. -/
def isBlank (c : Char) : Bool :=
  c == ' ' || ('\t' ≤ c && c ≤ '\r') || c == '\u0085' || c == '\u00A0' || c == '\u1680'
    || ('\u2000' ≤ c && c ≤ '\u200A') || c == '\u2028' || c == '\u2029' || c == '\u202F'
    || c == '\u205F' || c == '\u3000'

theorem isBlank_of_isLineBreak {c : Char} (h : isLineBreak c = true) :
  isBlank c = true
  := by
  simp only [isLineBreak, Bool.or_eq_true, beq_iff_eq] at h
  rcases h with ((rfl | rfl) | rfl) | rfl <;> decide

/-- The offsets right after the line terminators of a text that begins at offset `pos`. -/
def lineStartsFrom (pos : Nat) : Text → List Nat
  | [] => []
  | '\r' :: '\n' :: t => (pos + 2) :: lineStartsFrom (pos + 2) t
  | c :: t =>
    let next := pos + c.utf8Size
    if isLineBreak c then next :: lineStartsFrom next t else lineStartsFrom next t

/-- The offsets at which the lines of a text begin. -/
def lineStarts (t : Text) : List Nat := 0 :: lineStartsFrom 0 t

/-- A place in a text, as the number of its line, counted from one, and the number of
characters of the line before it. -/
structure Location where
  line : Nat
  column : Nat
  deriving DecidableEq, Repr, Inhabited

/-- A text together with the offsets at which its lines begin. -/
structure Lines where
  text : Text
  starts : List Nat
  deriving DecidableEq, Repr, Inhabited

namespace Lines

/-- The lines of a text. -/
def ofText (t : Text) : Lines := ⟨t, lineStarts t⟩

/-- The number of lines. -/
def count (l : Lines) : Nat := l.starts.length

/-- The offset at which a line begins. -/
def start? (l : Lines) (line : Nat) : Option Nat :=
  if line = 0 then none else l.starts[line - 1]?

/-- The number of characters of `t` that begin before offset `n`. -/
def columnAt (n : Nat) (t : Text) : Nat := (Text.before n t).length

/-- The location of an offset.  Offsets past the text count as its end. -/
def location (l : Lines) (offset : Nat) : Location :=
  let offset := min offset (Text.width l.text)
  let line := (l.starts.takeWhile (· ≤ offset)).length
  let start := (l.start? line).getD 0
  ⟨line, columnAt (offset - start) (Text.onward start l.text)⟩

/-- The offset of a location.  A line outside the text counts as the nearest line, and a column
past the end of a line as the end of the line. -/
def offset (l : Lines) (loc : Location) : Nat :=
  let line := min (max loc.line 1) l.count
  let start := (l.start? line).getD 0
  let stop := (l.start? (line + 1)).getD (Text.width l.text)
  let content := Text.slice l.text start stop
  start + Text.width (content.take loc.column)

end Lines

end Stencil
